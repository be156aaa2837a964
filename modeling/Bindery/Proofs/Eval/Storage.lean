import Bindery.Proofs.Eval.Equality
import Bindery.Proofs.Eval.History
import Bindery.Proofs.Eval.Shape
import Bindery.Proofs.Tree.Parsed

/-!
Instances that evaluation produces. What a construction builds is stored under an identity that
nothing was built under before, so in all that evaluation comes to, instances of one identity have
one content. An identity then decides a comparison that a look at the properties would decide
otherwise only where there is a NaN among these. There it does: an instance that holds a NaN equals
itself, although its properties do not.
-/

namespace Bindery

/-- What was built under an identity stays built under it. -/
def Registry.Extends (registry registry' : Registry) : Prop :=
  ∀ identity built, registry identity = some built → registry' identity = some built

theorem Registry.Extends.refl (registry : Registry) : registry.Extends registry :=
  fun _ _ h => h

theorem Registry.Extends.trans {registry middle later : Registry} (h : registry.Extends middle)
    (h' : middle.Extends later) : registry.Extends later :=
  fun identity built hbuilt => h' identity built (h identity built hbuilt)

mutual

theorem Value.Stored.mono {registry registry' : Registry} (hle : registry.Extends registry') :
    ∀ {value : Value}, value.Stored registry → value.Stored registry'
  | .inst .., h => ⟨hle _ _ h.1, h.2.mono hle⟩
  | .none, _ | .text _, _ | .number _, _ | .boolean _, _ | .structureRef _ _, _ | .error _, _ =>
      trivial

theorem PropertiesStored.mono {registry registry' : Registry} (hle : registry.Extends registry') :
    ∀ {properties : List (Name × Value)}, PropertiesStored registry properties →
      PropertiesStored registry' properties
  | [], _ => trivial
  | (_, _) :: _, h => ⟨h.1.mono hle, h.2.mono hle⟩

end

theorem propertiesStored_iff {registry : Registry} {properties : List (Name × Value)} :
    PropertiesStored registry properties ↔ ∀ entry ∈ properties, entry.2.Stored registry := by
  induction properties with
  | nil => simp [PropertiesStored]
  | cons entry rest ih => simp [PropertiesStored, ih]

namespace Context

theorem record_owner (context : Context) (bind : NodeId) (value : Value) :
    (context.record bind value).owner = context.owner := by
  simp only [record]
  split <;> rfl

theorem record_built (context : Context) (bind : NodeId) (value : Value) :
    (context.record bind value).built = context.built := by
  simp only [record]
  split <;> rfl

theorem owner_of_enter {context inner : Context} {frame : CallFrame}
    (h : context.enter frame = .ok inner) : inner.owner = context.owner := by
  obtain ⟨-, rfl⟩ := enter_eq_ok.mp h
  rfl

end Context

namespace Registry

variable {registry : Registry} {context : Context}

/-- What is built is added to the registry. -/
def add (registry : Registry) (identity : Identity) (built : NodeId × Properties) : Registry :=
  fun other => if other = identity then some built else registry other

theorem add_mono {identity : Identity} (hfree : registry identity = none)
    {built : NodeId × Properties} : registry.Extends (registry.add identity built) := by
  intro other old h
  have hne : other ≠ identity := by
    rintro rfl
    rw [hfree] at h
    cases h
  rw [add, if_neg hne, h]

/-- The registry tells of nothing but what was built in the context. -/
def Knows (registry : Registry) (context : Context) : Prop :=
  ∀ identity built, registry identity = some built →
    identity.owner = context.owner ∧ identity.serial < context.built

namespace Knows

theorem nextIdentity (h : registry.Knows context) : registry context.nextIdentity = none := by
  cases hnext : registry context.nextIdentity with
  | none => rfl
  | some built => exact absurd (h _ _ hnext).2 (Nat.lt_irrefl _)

theorem add (h : registry.Knows context) (built : NodeId × Properties) :
    (registry.add context.nextIdentity built).Knows
      { context with built := context.built + 1 } := by
  intro identity other hother
  simp only [Registry.add] at hother
  split at hother
  · rename_i heq
    subst heq
    exact ⟨rfl, Nat.lt_succ_self _⟩
  · obtain ⟨howner, hserial⟩ := h identity other hother
    exact ⟨howner, Nat.lt_succ_of_lt hserial⟩

theorem of_eq (h : registry.Knows context) {later : Context} (howner : later.owner = context.owner)
    (hbuilt : later.built = context.built) : registry.Knows later := by
  intro identity built hknown
  rw [howner, hbuilt]
  exact h identity built hknown

theorem record (h : registry.Knows context) (bind : NodeId) (value : Value) :
    registry.Knows (context.record bind value) :=
  h.of_eq (Context.record_owner ..) (Context.record_built ..)

theorem enter (h : registry.Knows context) {frame : CallFrame} {inner : Context}
    (henter : context.enter frame = .ok inner) : registry.Knows inner := by
  obtain ⟨-, rfl⟩ := Context.enter_eq_ok.mp henter
  exact h

end Knows

/-- The registry tells of what was built in a context of that owner, and all that the context holds
is stored. -/
structure Stores (registry : Registry) (owner : Nat) (context : Context) : Prop where
  owner_eq : context.owner = owner
  known : registry.Knows context
  held : context.HoldsOnly fun _ value => value.Stored registry

theorem stores_fresh (limits : Limits) (owner : Nat) :
    Registry.Stores (fun _ => none) owner (.fresh limits owner) :=
  ⟨rfl, fun _ _ h => (by cases h), .fresh limits owner⟩

end Registry

namespace Source

variable {source : Source}

/-- Contexts of one owner, and values as they are stored. -/
def stores (source : Source) (owner : Nat) : Discipline source Registry where
  le := Registry.Extends
  holds registry context := registry.Stores owner context
  good registry value := value.Stored registry
  admits _ := True
  le_refl := .refl
  le_trans := .trans
  good_mono h hgood := hgood.mono h
  good_none _ := trivial
  good_text _ _ := trivial
  good_boolean _ _ := trivial
  good_structureRef _ _ _ _ := trivial
  good_property h hget := propertiesStored_iff.mp h.2 _ (Properties.mem_of_get?_eq_some hget)
  lookup? h hlookup := h.held.lookup? hlookup
  record h hgood _ :=
    ⟨(Context.record_owner ..).trans h.owner_eq, h.known.record _ _, h.held.record hgood⟩
  keep h hgood _ := ⟨h.owner_eq, h.known, h.held.keep hgood⟩
  enter h henter :=
    ⟨(Context.owner_of_enter henter).trans h.owner_eq, h.known.enter henter, h.held.enter henter⟩
  leave h := ⟨h.owner_eq, h.known, h.held.leave⟩
  build {registry context id definition bound} h _ _ hbound := by
    have hle : registry.Extends
        (registry.add context.nextIdentity (id, Properties.ofBinds bound)) :=
      Registry.add_mono h.known.nextIdentity
    refine ⟨registry.add context.nextIdentity (id, Properties.ofBinds bound), hle,
      ⟨h.owner_eq, h.known.add _, ?_⟩, by rw [Registry.add, if_pos rfl], ?_⟩
    · have hheld := h.held.mono fun _ _ hvalue => hvalue.mono hle
      exact ⟨hheld.frames, hheld.demanded⟩
    · refine propertiesStored_iff.mpr fun entry hentry => ?_
      obtain ⟨bind, hbind⟩ := Properties.mem_ofBinds hentry
      exact (hbound _ hbind).1.mono hle
  fail _ := trivial
  overflow _ := trivial

theorem governs_stores (hsource : source.WellFormed) (owner steps : Nat) :
    (source.stores owner).Governs (source.eval steps) :=
  (source.stores owner).governs_eval hsource (fun _ _ _ => trivial) steps

/-- What a node comes to is stored, and so is all that is left behind. -/
theorem exists_stores_of_evaluate (hsource : source.WellFormed) {registry : Registry} {owner : Nat}
    {context : Context} (hstores : registry.Stores owner context) (id : NodeId) :
    ∃ registry', (source.stores owner).le registry registry' ∧
      registry'.Stores owner (source.evaluate id context).2 ∧
      (source.evaluate id context).1.Stored registry' := by
  have hkeeps := source.governs_stores hsource owner (source.stepBound context) id registry context
    hstores
  rw [evaluate]
  split
  · rename_i value later hvalue
    obtain ⟨registry', hle, hlater, hstored, -⟩ := hkeeps.of_value hvalue
    exact ⟨registry', hle, hlater, hstored⟩
  · rename_i error later herror
    obtain ⟨registry', hle, hlater⟩ := hkeeps.of_context? (by rw [herror]; rfl)
    exact ⟨registry', hle, hlater, trivial⟩
  · exact ⟨registry, (source.stores owner).le_refl registry, hstores, trivial⟩

/-- In the course of a history, all that its nodes come to is stored in one registry. -/
theorem exists_stores_of_used (hsource : source.WellFormed) {registry : Registry} {owner : Nat}
    {context : Context} (hstores : registry.Stores owner context) (history : List NodeId) :
    ∃ registry', (source.stores owner).le registry registry' ∧
      registry'.Stores owner (source.used history context) ∧
      ∀ before id after, history = before ++ id :: after →
        (source.evaluate id (source.used before context)).1.Stored registry' := by
  induction history generalizing registry context with
  | nil =>
      have hle := (source.stores owner).le_refl registry
      refine ⟨registry, hle, hstores, fun before id after h => ?_⟩
      exact absurd h (by simp)
  | cons first rest ih =>
      obtain ⟨registry₁, hle₁, hstores₁, hfirst⟩ := exists_stores_of_evaluate hsource hstores first
      obtain ⟨registry₂, hle₂, hstores₂, hrest⟩ := ih hstores₁
      refine ⟨registry₂, (source.stores owner).le_trans hle₁ hle₂, hstores₂,
        fun before id after h => ?_⟩
      cases before with
      | nil =>
          cases h
          exact hfirst.mono hle₂
      | cons _ before =>
          cases h
          exact hrest before id after rfl

end Source

/-- What an instance holds, and its identity. -/
def Value.content? : Value → Option (Identity × Properties)
  | .inst identity _ _ properties => some (identity, properties)
  | _ => Option.none

theorem Value.exists_eq_inst_of_content? {value : Value} {identity : Identity}
    {properties : Properties} (h : value.content? = some (identity, properties)) :
    ∃ typeName definition, value = .inst identity typeName definition properties := by
  cases value with
  | inst identity' typeName definition properties' =>
      cases h
      exact ⟨typeName, definition, rfl⟩
  | none | text | number | boolean | structureRef | error => cases h

/-- A program of which some nodes are evaluated, one after the other, from a fresh context on. -/
structure Session where
  source : Source
  wellFormed : source.WellFormed
  limits : Limits
  history : List NodeId

namespace Session

variable {sessions : Nat → Session} {value other : Value}

/-- The session evaluates some node to the value. What it builds is its owner's. -/
def Yields (session : Session) (owner : Nat) (value : Value) : Prop :=
  ∃ before id after, session.history = before ++ id :: after ∧
    value = (session.source.evaluate id
      (session.source.used before (.fresh session.limits owner))).1

/-- Values that may be compared: two that were yielded by sessions, by one or by two of them, or the
operands of a node in the midst of a session. -/
inductive Meet (sessions : Nat → Session) : Value → Value → Prop
  | yielded {owner owner' value other} : (sessions owner).Yields owner value →
      (sessions owner').Yields owner' other → Meet sessions value other
  | operands {owner steps id op left right context between later value other} :
      (sessions owner).source.Performs (.fresh (sessions owner).limits owner)
        (sessions owner).history (steps + 1) id context →
      (sessions owner).source.kind id = .binary op left right →
      (sessions owner).source.eval steps left context = .value value between →
      (sessions owner).source.eval steps right between = .value other later →
      Meet sessions value other

/-- All that a session yields is stored in one registry, which tells of its own instances only. -/
theorem exists_registry (session : Session) (owner : Nat) :
    ∃ registry : Registry,
      (∀ identity built, registry identity = some built → identity.owner = owner) ∧
      ∀ value, session.Yields owner value → value.Stored registry := by
  obtain ⟨registry, -, hstores, hstored⟩ := Source.exists_stores_of_used session.wellFormed
    (Registry.stores_fresh session.limits owner) session.history
  refine ⟨registry, fun identity built hbuilt => ?_, ?_⟩
  · exact (hstores.known identity built hbuilt).1.trans hstores.owner_eq
  · rintro value ⟨before, id, after, hhistory, rfl⟩
    exact hstored before id after hhistory

/-- Values that meet are stored in one registry. -/
theorem Meet.stored (h : Meet sessions value other) :
    ∃ registry, value.Stored registry ∧ other.Stored registry := by
  cases h with
  | @yielded owner owner' _ _ hvalue hother =>
      choose registry howner hstored using fun owner => (sessions owner).exists_registry owner
      -- Each identity is looked up with its owner.
      have hle (owner : Nat) (identity : Identity) (built : NodeId × Properties)
          (hbuilt : registry owner identity = some built) :
          registry identity.owner identity = some built :=
        (howner owner identity built hbuilt).symm ▸ hbuilt
      exact ⟨fun identity => registry identity.owner identity,
        (hstored owner _ hvalue).mono (hle owner), (hstored owner' _ hother).mono (hle owner')⟩
  | @operands owner steps _ _ _ _ _ _ _ _ _ hperforms hkind hleft hright =>
      have hgoverns := (sessions owner).source.governs_stores (sessions owner).wellFormed owner
      obtain ⟨registry, -, hholds⟩ := Discipline.of_performs hgoverns
        (Registry.stores_fresh (sessions owner).limits owner) hperforms
      obtain ⟨registry₁, -, hholds₁, hvalue⟩ :=
        (Discipline.keeps_recur (hgoverns steps) hholds).of_value hleft
      obtain ⟨registry₂, hle, -, hother⟩ :=
        (Discipline.keeps_recur (hgoverns steps) hholds₁).of_value hright
      exact ⟨registry₂, Value.Stored.mono hle hvalue, hother⟩

/-- Two instances that meet compare as what they hold compares, unless they are one instance with a
NaN for a property. At all depths they compare as they look, unless they are equal and hold a NaN at
some depth. -/
theorem Meet.beq_eq_iff {identity identity' : Identity} {typeName typeName' : Name}
    {definition definition' : NodeId} {properties properties' : Properties}
    (h : Meet sessions (.inst identity typeName definition properties)
      (.inst identity' typeName' definition' properties')) :
    ((Value.inst identity typeName definition properties ==
          .inst identity' typeName' definition' properties') =
        (definition == definition' && Value.propertiesBeq properties properties') ↔
      (identity = identity' →
        ∀ entry ∈ properties, ∀ x, entry.2 = .number x → x.isNaN = false)) ∧
    ((Value.inst identity typeName definition properties ==
          .inst identity' typeName' definition' properties') =
        (definition == definition' && Value.propertiesSame properties properties') ↔
      ((Value.inst identity typeName definition properties ==
          .inst identity' typeName' definition' properties') = true →
        Value.PropertiesNaNFree properties)) := by
  obtain ⟨registry, hvalue, hother⟩ := h.stored
  exact ⟨hvalue.inst_beq_eq_iff hother, hvalue.beq_eq_same_iff hother⟩

/-- An instance with a NaN for a property, which is compared with itself. The operands of the
comparison, nodes 8 and 9, come to that one instance. -/
theorem exists_instance_with_nan :
    ∃ source, (Source.parse "<code>" "•Cat(x)\ncat: Cat(0/0)\ncat = cat" .empty).1 = .ok source ∧
      (source.evaluateRoot (.fresh {} 0)).1 = .boolean true ∧
      ∃ identity typeName typeName' definition definition' properties properties',
        (source.evaluate ⟨8⟩ (.fresh {} 0)).1 = .inst identity typeName definition properties ∧
        (source.evaluate ⟨9⟩ (source.used [⟨8⟩] (.fresh {} 0))).1 =
          .inst identity typeName' definition' properties' ∧
        Value.propertiesBeq properties properties' = false := by
  have hfacts : (Source.parse "<code>" "•Cat(x)\ncat: Cat(0/0)\ncat = cat" .empty).1.toOption.bind
      (fun source => (source.evaluate ⟨8⟩ (.fresh {} 0)).1.content?.bind fun left =>
        (source.evaluate ⟨9⟩ (source.used [⟨8⟩] (.fresh {} 0))).1.content?.map fun right =>
          ((Value.boolean true).beq (source.evaluateRoot (.fresh {} 0)).1, left.1 == right.1,
            Value.propertiesBeq left.2 right.2)) = some (true, true, false) := by
    decide +kernel
  obtain ⟨source, h, hread⟩ := Source.exists_of_toOption_bind hfacts
  obtain ⟨⟨identity, properties⟩, hleft, hread⟩ := Option.bind_eq_some_iff.mp hread
  obtain ⟨⟨identity', properties'⟩, hright, hread⟩ := Option.map_eq_some_iff.mp hread
  obtain ⟨hroot, hread⟩ := Prod.mk.inj hread
  obtain ⟨hidentity, hbeq⟩ := Prod.mk.inj hread
  obtain rfl : identity = identity' := eq_of_beq hidentity
  obtain ⟨typeName, definition, hleft⟩ := Value.exists_eq_inst_of_content? hleft
  obtain ⟨typeName', definition', hright⟩ := Value.exists_eq_inst_of_content? hright
  have hanswer := (Value.beq_iff_eq_of_plain (by simp) (by simp)).mp hroot
  exact ⟨source, h, hanswer.symm, identity, typeName, typeName', definition, definition',
    properties, properties', hleft, hright, hbeq⟩

theorem exists_meet_with_nan :
    ∃ (sessions : Nat → Session) (identity : Identity) (typeName typeName' : Name)
        (definition definition' : NodeId) (properties properties' : Properties),
      Meet sessions (.inst identity typeName definition properties)
        (.inst identity typeName' definition' properties') ∧
      Value.propertiesBeq properties properties' = false := by
  obtain ⟨source, h, -, identity, typeName, typeName', definition, definition', properties,
    properties', hleft, hright, hbeq⟩ := exists_instance_with_nan
  let session : Session := ⟨source, Source.wellFormed_of_parse h, {}, [⟨8⟩, ⟨9⟩]⟩
  have hvalue : session.Yields 0 (.inst identity typeName definition properties) :=
    ⟨[], ⟨8⟩, [⟨9⟩], rfl, hleft.symm⟩
  have hother : session.Yields 0 (.inst identity typeName' definition' properties') :=
    ⟨[⟨8⟩], ⟨9⟩, [], rfl, hright.symm⟩
  exact ⟨fun _ => session, identity, typeName, typeName', definition, definition', properties,
    properties', .yielded hvalue hother, hbeq⟩

/-- Operands that are one instance hold a NaN if their properties differ. -/
theorem Meet.beq_eq_iff_of_nan :
    ∃ (sessions : Nat → Session) (identity : Identity) (typeName typeName' : Name)
        (definition definition' : NodeId) (properties properties' : Properties),
      Meet sessions (.inst identity typeName definition properties)
        (.inst identity typeName' definition' properties') ∧
      (¬ ∀ entry ∈ properties, ∀ x, entry.2 = .number x → x.isNaN = false) ∧
      ¬ Value.PropertiesNaNFree properties := by
  obtain ⟨sessions, identity, typeName, typeName', definition, definition', properties,
    properties', hmeet, hbeq⟩ := exists_meet_with_nan
  obtain ⟨hshallow, hdeep⟩ := hmeet.beq_eq_iff
  refine ⟨sessions, identity, typeName, typeName', definition, definition', properties,
    properties', hmeet, fun hfree => ?_, fun hfree => ?_⟩
  · have heq := hshallow.mpr fun _ => hfree
    simp [Value.beq_eq, Value.beq, hbeq] at heq
  · have heq := hdeep.mpr fun _ => hfree
    have hsame : Value.propertiesSame properties properties' = false := by
      rw [← Bool.not_eq_true]
      intro hsame
      rw [Value.propertiesBeq_of_same hsame] at hbeq
      cases hbeq
    simp [Value.beq_eq, Value.beq, hsame] at heq

/-- Equality is not structural: an instance that holds a NaN equals itself. -/
theorem not_beq_structural :
    ¬ ∀ (sessions : Nat → Session) (identity identity' : Identity) (typeName typeName' : Name)
        (definition definition' : NodeId) (properties properties' : Properties),
      Meet sessions (.inst identity typeName definition properties)
          (.inst identity' typeName' definition' properties') →
        (Value.inst identity typeName definition properties ==
            .inst identity' typeName' definition' properties') =
          (definition == definition' && Value.propertiesBeq properties properties') := by
  intro hstructural
  obtain ⟨sessions, identity, typeName, typeName', definition, definition', properties,
    properties', hmeet, hbeq⟩ := exists_meet_with_nan
  have heq := hstructural _ _ _ _ _ _ _ _ _ hmeet
  simp [Value.beq_eq, Value.beq, hbeq] at heq

end Session
end Bindery
