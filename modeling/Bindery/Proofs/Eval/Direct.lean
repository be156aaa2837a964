import Bindery.Proofs.Eval.Lockstep
import Mathlib.Data.List.Induction

/-!
A node evaluated on its own. Outside of structures every node that the evaluation of the root comes
to sees only binds that have been evaluated before, once each. Evaluated on its own, in a fresh
context, the node asks for them again, in whatever order, and goes in lockstep with the evaluation
of the root.
-/

namespace Bindery.Source

variable {source : Source}

/-- No structure is defined above the node. -/
def Outside (source : Source) (id : NodeId) : Prop :=
  ∀ top definition, source.kind top = .structureDef definition → ¬ source.Under top id

theorem Outside.of_child {parent id : NodeId} (h : source.Outside id)
    (hid : id ∈ source.children parent) : source.Outside parent := fun top definition htop hunder =>
  h top definition htop (hunder.further hid)

/-- A comparison of runs with limits of their own. -/
def lax : Comparison := ⟨True, [], [], rfl⟩

/-- The ledger tells of the evaluations of just the binds among the definitions, which the
evaluation of the root from `start` has come to, and the context holds their values. -/
structure Covers (source : Source) (start : Context) (ledger : List Line)
    (definitions : List Definition) (context : Context) : Prop where
  chronicle : source.Chronicle lax ledger
  reached : ∀ line ∈ ledger, ∃ live, source.Reached start line.steps live line.bind line.start
  held : ∀ bind, .bind bind ∈ definitions →
    ∃ line ∈ ledger, line.bind = bind ∧ context.lookup? bind = some line.value
  defined : ∀ line ∈ ledger, .bind line.bind ∈ definitions
  past : ∀ line ∈ ledger, line.finish.owner = context.owner ∧ line.finish.built ≤ context.built

namespace Chronicle

variable {comparison : Comparison} {ledger : List Line} {line : Line}

theorem snoc (h : source.Chronicle comparison ledger) (hline : source.Justified ledger line)
    (houtside : source.Outside line.bind) (hlax : comparison.lax) :
    source.Chronicle comparison (ledger ++ [line]) := by
  refine ⟨fun earlier other later heq => ?_, fun other hother => ?_, fun other hother => hlax⟩
  · rcases List.eq_nil_or_concat later with rfl | ⟨later', last, rfl⟩
    · obtain ⟨rfl, hlast⟩ := List.append_inj' heq rfl
      cases hlast
      exact hline
    · rw [List.concat_eq_append, ← List.cons_append, ← List.append_assoc] at heq
      exact h.justified earlier other later' (List.append_inj' heq rfl).1
  · rcases List.mem_append.mp hother with hother | hother
    · exact h.outside other hother
    · rw [List.mem_singleton.mp hother]
      exact houtside

end Chronicle

namespace Covers

variable {start : Context} {ledger : List Line} {definitions : List Definition}
  {context later : Context}

theorem nil (hsource : source.WellFormed) :
    source.Covers start [] (source.visible source.root) context := by
  rw [WellFormed.visible_of_parent?_eq_none hsource.parent?_root]
  exact ⟨⟨fun earlier line later heq => by simp at heq,
    fun _ hline => absurd hline List.not_mem_nil,
    fun _ hline => absurd hline List.not_mem_nil⟩, fun _ hline => absurd hline List.not_mem_nil,
    fun _ hbind => absurd hbind List.not_mem_nil,
    fun _ hline => absurd hline List.not_mem_nil, fun _ hline => absurd hline List.not_mem_nil⟩

/-- What has been evaluated stays so where the values of binds stay. -/
theorem of_grows {own kept : NodeId → Prop} (h : source.Covers start ledger definitions context)
    (hgrows : context.Grows own kept later)
    (hlookup : ∀ bind, .bind bind ∈ definitions → later.lookup? bind = context.lookup? bind) :
    source.Covers start ledger definitions later where
  chronicle := h.chronicle
  reached := h.reached
  held bind hbind := by
    rw [hlookup bind hbind]
    exact h.held bind hbind
  defined := h.defined
  past line hline := ⟨(h.past line hline).1.trans hgrows.owner.symm,
    Nat.le_trans (h.past line hline).2 hgrows.built⟩

theorem enter {frame : CallFrame} (h : source.Covers start ledger definitions context)
    (henter : context.enter frame = .ok later) : source.Covers start ledger definitions later := by
  obtain ⟨-, rfl⟩ := Context.enter_eq_ok.mp henter
  exact ⟨h.chronicle, h.reached, h.held, h.defined, h.past⟩

/-- Expressions leave the values of binds as they are. -/
theorem advance (h : source.Covers start ledger definitions context)
    (hlater : ∃ built, later = context.at context.frames built)
    (hgrows : context.Grows (fun _ => True) (fun _ => True) later) :
    source.Covers start ledger definitions later := by
  obtain ⟨built, rfl⟩ := hlater
  exact h.of_grows hgrows fun _ _ => rfl

/-- The evaluation of a statement is booked if the statement is a bind. -/
theorem statement (hsource : source.WellFormed) {live : List NodeId} {id : NodeId} {steps : Nat}
    {value : Value} (h : source.Covers start ledger (source.visible id) context)
    (hreached : source.Reached start steps live id context)
    (hsituated : source.Situated live id context) (houtside : source.Outside id)
    (hvalue : source.eval steps id context = .value value later) :
    ∃ ledger',
      source.Covers start ledger' (source.visible id ++ (source.definition? id).toList) later := by
  have hgrows := source.eval_grows steps id context later (by rw [hvalue]; rfl)
  obtain ⟨scope, hmatches⟩ := hsituated.scope
  have hvalue' : source.eval steps id (context.at context.frames context.built) =
      .value value later := hvalue
  obtain ⟨_, _, built, hlater, -, rfl⟩ :=
    exists_at_of_simulates (source.agrees_eval hsource (source.program context) steps context
      context.frames context.built scope id rfl hsituated.admits hsituated.frames_ne_nil hmatches)
      hvalue'
  by_cases hbind : ∃ bind, source.kind id = .bind bind
  · obtain ⟨bind, hkind⟩ := hbind
    have hdefinition : source.definition? id = some (.bind id) := by
      simp only [definition?, hkind]
    cases hframes : context.frames with
    | nil => exact absurd hframes (hsituated.frames_ne_nil bind hkind)
    | cons top outer =>
        have hlookup (key : NodeId) : later.lookup? key =
            if key = id then some value else context.lookup? key := by
          simp only [hlater, Context.lookup?, Context.at, hframes, recorded, binding, hkind,
            List.findSome?_cons, List.cons_append, List.nil_append, List.lookup_cons]
          by_cases heq : key = id
          · simp [heq]
          · simp [heq, beq_false_of_ne heq]
        have hne {key : NodeId} (hkey : .bind key ∈ source.visible id) : key ≠ id := by
          rintro rfl
          exact hsource.not_mem_visible _ hkey
        let line : Line := ⟨id, value, steps, context, later⟩
        have hjustified : source.Justified ledger line := by
          refine ⟨hsituated.admits, ⟨bind, hkind⟩, hvalue, fun key hkey => ?_, h.defined, h.past⟩
          obtain ⟨old, hold, heq, hfound⟩ := h.held key hkey
          exact ⟨old, hold, heq, hfound⟩
        rw [hdefinition]
        refine ⟨ledger ++ [line], h.chronicle.snoc hjustified houtside trivial,
          fun other hother => ?_, fun key hkey => ?_, fun other hother => ?_,
          fun other hother => ?_⟩
        · rcases List.mem_append.mp hother with hother | hother
          · exact h.reached other hother
          · rw [List.mem_singleton.mp hother]
            exact ⟨live, hreached⟩
        · rcases List.mem_append.mp hkey with hkey | hkey
          · obtain ⟨old, hold, heq, hfound⟩ := h.held key hkey
            refine ⟨old, List.mem_append_left _ hold, heq, ?_⟩
            rw [hlookup key, if_neg (hne hkey), hfound]
          · cases List.mem_singleton.mp hkey
            exact ⟨line, by simp, rfl, by rw [hlookup, if_pos rfl]⟩
        · rcases List.mem_append.mp hother with hother | hother
          · exact List.mem_append_left _ (h.defined other hother)
          · rw [List.mem_singleton.mp hother]
            exact List.mem_append_right _ (List.mem_singleton.mpr rfl)
        · rcases List.mem_append.mp hother with hother | hother
          · exact ⟨(h.past other hother).1.trans hgrows.owner.symm,
              Nat.le_trans (h.past other hother).2 hgrows.built⟩
          · rw [List.mem_singleton.mp hother]
            exact ⟨rfl, Nat.le_refl _⟩
  · have hne := not_exists.mp hbind
    have hcovers : source.Covers start ledger (source.visible id) later := by
      refine h.of_grows hgrows fun key _ => ?_
      rw [hlater, recorded_eq_self hne]
      rfl
    have hmem {key : NodeId} (hkey : .bind key ∈ (source.definition? id).toList) : False := by
      simp only [definition?] at hkey
      split at hkey
      · exact hne _ ‹_›
      · simp at hkey
      · simp at hkey
    exact ⟨ledger, hcovers.chronicle, hcovers.reached, fun key hkey =>
      (List.mem_append.mp hkey).elim (hcovers.held key) fun hkey => (hmem hkey).elim,
      fun line hline => List.mem_append_left _ (hcovers.defined line hline), hcovers.past⟩

end Covers

/-- After some of the statements of a block all binds are booked that are visible to the next. -/
theorem covers_of_evalSequence (hsource : source.WellFormed) {live : List NodeId} {id : NodeId}
    {start context inner : Context} {steps : Nat} {ledger : List Line} {statements : NodeRange}
    (hreached : source.Reached start (steps + 1) live id context)
    (hsituated : source.Situated live id context)
    (hcovers : source.Covers start ledger (source.visible id) context)
    (hkind : source.kind id = .block statements)
    (henter : context.enter ⟨.block, source.span id⟩ = .ok inner) {before after : List NodeId}
    (houtside : ∀ node ∈ before, source.Outside node)
    (hlist : source.list statements = before ++ after) {last : Value} {later : Context}
    (hbefore : evalSequence (source.eval steps) .none before inner = .value last later) :
    ∃ ledger', source.Covers start ledger'
      (source.visible id ++ before.filterMap source.definition?) later := by
  -- Each further statement stands where all before it have been evaluated.
  induction before using List.reverseRecOn generalizing after last later with
  | nil =>
      cases hbefore
      exact ⟨ledger, by simpa using hcovers.enter henter⟩
  | append_singleton before node ih =>
      rw [List.append_assoc, List.singleton_append] at hlist
      rw [evalSequence_append] at hbefore
      obtain ⟨value, between, hrun, hlast⟩ := Step.exists_of_bind_eq_value hbefore
      obtain ⟨_, _, hnode, hpure⟩ := Step.exists_of_bind_eq_value hlast
      cases hpure
      obtain ⟨ledger', hcovers'⟩ :=
        ih (fun node hnode => houtside node (List.mem_append_left _ hnode)) hlist hrun
      have hsituated' := hsituated.statement hsource hkind hlist henter hrun
      have hvisible := (hsource.along_block hkind).visible_eq before node after hlist
      rw [← hvisible] at hcovers'
      obtain ⟨ledger'', hcovers''⟩ := hcovers'.statement hsource
        (hreached.call (.statement hkind hlist henter hrun)) hsituated'
        (houtside node (by simp)) hnode
      rw [hvisible] at hcovers''
      refine ⟨ledger'', ?_⟩
      rw [List.filterMap_append, ← List.append_assoc, filterMap_cons_append, List.append_assoc]
      simpa using hcovers''

theorem nesting_lt_of_reached (hsource : source.WellFormed) {start context : Context} {steps : Nat}
    {live : List NodeId} {id : NodeId} (h : source.Reached start steps live id context) :
    source.nesting id context < steps := by
  induction h with
  | root => exact source.nesting_lt_stepBound _ _
  | @call steps live id context entered node later _ hcalls ih =>
      have hlt := nesting_lt hsource (source.eval_keepsCallStack steps) hcalls
      omega

/-- The statements of a body stand inside of the structure, and so do its inputs. -/
theorem not_outside_of_structureDef {structureId node : NodeId} {definition : StructureNode}
    (hkind : source.kind structureId = .structureDef definition)
    (hnode : (∃ input, input ∈ source.list definition.inputs ∧ node ∈ source.children input) ∨
      node ∈ source.bodyStatements definition) : ¬ source.Outside node := by
  intro houtside
  refine houtside structureId definition hkind ?_
  rcases hnode with ⟨input, hinput, hnode⟩ | hnode
  · refine (Under.of_child ?_).further hnode
    rw [WellFormed.children_of_structureDef hkind]
    exact List.mem_append_left _ hinput
  · obtain ⟨body, statements, hbody, hblock, hstatements⟩ := exists_body hnode
    refine (Under.of_child (WellFormed.mem_children_of_placed (placed_body hkind hbody))).further ?_
    rw [WellFormed.children_of_block hblock, ← hstatements]
    exact hnode

/-- Wherever the evaluation of the root comes outside of structures, just the visible binds are
booked. -/
theorem covers_of_calls (hsource : source.WellFormed) {live : List NodeId} {id node : NodeId}
    {start context later : Context} {steps : Nat} {entered : Option NodeId}
    (hreached : source.Reached start (steps + 1) live id context)
    (hsituated : source.Situated live id context)
    (hcovers : source.Outside id → ∃ ledger, source.Covers start ledger (source.visible id) context)
    (hcalls : source.Calls (source.eval steps) id context entered node later)
    (houtside : source.Outside node) :
    ∃ ledger', source.Covers start ledger' (source.visible node) later := by
  have hgrows {node : NodeId} {context later : Context} {value : Value}
      (hvalue : source.eval steps node context = .value value later) :=
    source.eval_grows steps node context later (by rw [hvalue]; rfl)
  have hchild {node : NodeId}
      (hplaced : (Place.expression, node) ∈ source.arena.placements (source.kind id))
      (hlater : ∃ built, later = context.at context.frames built)
      (hgrows : context.Grows (fun _ => True) (fun _ => True) later) :
      source.Outside node → ∃ ledger', source.Covers start ledger' (source.visible node) later := by
    intro houtside
    obtain ⟨ledger, hcovers⟩ :=
      hcovers (houtside.of_child (WellFormed.mem_children_of_placed hplaced))
    rw [hsource.visible_of_placed hplaced]
    exact ⟨ledger, hcovers.advance hlater hgrows⟩
  cases hcalls with
  | @statement statements before _ after inner last _ hkind hlist henter hbefore =>
      have hmem (child : NodeId) (hchild : child ∈ before ++ node :: after) :
          child ∈ source.children id := by
        rw [WellFormed.children_of_block hkind, hlist]
        exact hchild
      obtain ⟨ledger, hcovers⟩ := hcovers (houtside.of_child (hmem node (by simp)))
      rw [(hsource.along_block hkind).visible_eq before node after hlist]
      refine covers_of_evalSequence hsource hreached hsituated hcovers hkind henter
        (fun sibling hsibling => ?_) hlist hbefore
      -- What stands beside the node is outside of structures as well.
      intro top definition htop hunder
      rcases (hsource.under_iff_of_mem_children
        (hmem sibling (List.mem_append_left _ hsibling))).mp hunder with rfl | hunder
      · cases hkind.symm.trans htop
      · exact houtside top definition htop (hunder.further (hmem node (by simp)))
  | demanded hkind hdefinition hlookup =>
      obtain ⟨_, _, -, -, hvalue⟩ := hsituated.lookup?_eq hdefinition
      cases hlookup.symm.trans (hvalue context.demanded)
  | @default structureId definition _ _ _ input _ _ _ bind _ hconstructs hlist hbefore _ hbind
    hvalue =>
      refine absurd houtside (not_outside_of_structureDef
        (structure?_eq_some.mp hconstructs.defined) (.inl ⟨input, by rw [hlist]; simp, ?_⟩))
      exact WellFormed.mem_children_of_placed (placed_value hbind hvalue)
  | bodyStatement hconstructs hinputs hlist hbefore =>
      exact absurd houtside (not_outside_of_structureDef (structure?_eq_some.mp hconstructs.defined)
        (.inr (by rw [hlist]; simp)))
  | value hkind hvalue =>
      exact hchild (by simp [hkind, Arena.placements, hvalue]) ⟨_, rfl⟩ (.refl context) houtside
  | subject hkind | callee hkind | left hkind | operand hkind | condition hkind =>
      exact hchild (by simp [hkind, Arena.placements]) ⟨_, rfl⟩ (.refl context) houtside
  | @argument callee arguments before _ after _ between _ _ hkind hlist hcallee hbefore =>
      have hplaced (node : NodeId) (hnode : node ∈ source.list arguments) :
          (Place.expression, node) ∈ source.arena.placements (source.kind id) :=
        WellFormed.placed_argument hkind hnode
      rw [hlist] at hplaced
      have hplaced' : (Place.expression, callee) ∈ source.arena.placements (source.kind id) := by
        simp [hkind, Arena.placements]
      have hafter : between.Grows (fun _ => True) (fun _ => True) later :=
        @evalEach_congr _ Step.congruence_grows.toCongruence (source.eval steps) (source.eval steps)
          before between (fun _ node _ _ later _ _ => source.eval_grows steps node later) later
          (by rw [hbefore]; rfl)
      have hgrows := (hgrows hcallee).trans hafter
      obtain ⟨built, rfl⟩ := hsituated.of_expression hsource hplaced' hcallee
      obtain ⟨built', rfl⟩ := hsituated.of_arguments hsource
        (fun node hnode => hplaced node (List.mem_append_left _ hnode)) hbefore
      exact hchild (hplaced node (List.mem_append_right _ List.mem_cons_self)) ⟨built', rfl⟩ hgrows
        houtside
  | @right _ left _ _ _ hkind hleft =>
      have hplaced : (Place.expression, left) ∈ source.arena.placements (source.kind id) := by
        simp [hkind, Arena.placements]
      exact hchild (by simp [hkind, Arena.placements])
        (hsituated.of_expression hsource hplaced hleft) (hgrows hleft) houtside
  | @branch condition _ _ choice _ hkind hcondition =>
      have hplaced : (Place.expression, condition) ∈ source.arena.placements (source.kind id) := by
        simp [hkind, Arena.placements]
      exact hchild (by cases choice <;> simp [hkind, Arena.placements])
        (hsituated.of_expression hsource hplaced hcondition) (hgrows hcondition) houtside

theorem covers_of_reached (hsource : source.WellFormed) {start context : Context}
    (hcalls : start.callStack.frames = []) (hframes : start.frames = []) {steps : Nat}
    {live : List NodeId} {id : NodeId} (h : source.Reached start steps live id context) :
    source.Outside id → ∃ ledger, source.Covers start ledger (source.visible id) context := by
  induction h with
  | root => exact fun _ => ⟨[], .nil hsource⟩
  | call hreached hcall ih =>
      exact covers_of_calls hsource hreached (situated_of_reached hsource hcalls hframes hreached)
        ih hcall

/-- A fresh context is abreast with any that has evaluated what is visible. -/
theorem Covers.abreast {start : Context} {ledger : List Line} {definitions : List Definition}
    {context : Context} (h : source.Covers start ledger definitions context) (limits : Limits)
    (owner : Nat) :
    Abreast lax ledger (fun _ _ => False) context (.fresh limits owner) ∧
      Shares ledger (fun _ _ => False) definitions context (.fresh limits owner) := by
  refine ⟨⟨⟨fun hi => hi.elim, fun hi => hi.elim⟩, fun _ _ hi => hi.elim, .inl trivial,
    fun line hline =>
      .due (fun _ hframe => absurd hframe List.not_mem_nil) rfl fun _ _ hi => hi.elim,
    h.past⟩, fun bind hbind => ?_⟩
  obtain ⟨line, hline, heq, hvalue⟩ := h.held bind hbind
  exact ⟨line.value, hvalue, .inl ⟨line, hline, heq, rfl⟩⟩

/-- The value that a step has come to. -/
def valueOf? : Outcome Value → Option Value
  | .value value _ => some value
  | .error _ _ | .unfinished => none

theorem exists_of_valueOf?_eq_some {outcome : Outcome Value} {value : Value}
    (h : valueOf? outcome = some value) : ∃ later, outcome = .value value later := by
  cases outcome with
  | value value later => exact ⟨later, congrArg (Outcome.value · later) (Option.some.inj h)⟩
  | error | unfinished => cases h

/-- The value is an error of a call stack that exceeds its limit. -/
def Overflowed (value : Value) : Prop := ∃ error : EvalError, value = .error error ∧ error.Overflows

instance (value : Value) : Decidable (Overflowed value) :=
  match value with
  | .error error =>
    decidable_of_iff error.Overflows ⟨fun h => ⟨error, rfl, h⟩, fun ⟨_, heq, h⟩ => by
      cases heq
      exact h⟩
  | .none | .text _ | .number _ | .boolean _ | .structureRef .. | .inst .. =>
    .isFalse fun ⟨_, heq, _⟩ => Value.noConfusion heq

/-- A node comes to the outcome in the course of an evaluation, and evaluated on its own to the
answer: unless either exceeds its limit, to the same value, up to a one-to-one correspondence of
identities, or to an error of the same kind at the same place. -/
def AgreesWith (outcome : Outcome Value) (answer : Value) : Prop :=
  match outcome with
  | .value value _ =>
    Overflowed answer ∨ ∃ pairing : Pairing, pairing.OneToOne ∧ value.Alike pairing answer
  | .error error _ =>
    error.Overflows ∨ Overflowed answer ∨
      ∃ error', answer = .error error' ∧ error'.fault = error.fault ∧ error'.span = error.span
  | .unfinished => False

/-- Every node outside of structures that the evaluation of the root comes to can as well be
evaluated on its own. -/
theorem evaluate_direct {name text : String} {interner : Interner} {source : Source}
    (h : (parse name text interner).1 = .ok source) (limits limits' : Limits) (owner owner' : Nat)
    {steps : Nat} {live : List NodeId} {id : NodeId} {context : Context}
    (hreached : source.Reached (.fresh limits owner) steps live id context)
    (houtside : source.Outside id) :
    AgreesWith (source.eval steps id context) (source.evaluate id (.fresh limits' owner')).1 := by
  have hsource := wellFormed_of_parse h
  have hsituated := situated_of_reached hsource rfl rfl hreached
  obtain ⟨ledger, hcovers⟩ := covers_of_reached hsource rfl rfl hreached houtside
  obtain ⟨habreast, hshares⟩ := hcovers.abreast limits' owner'
  have hclear : source.Clear ledger id := fun line hline => by
    have hvisible := mem_definitionsInScope_iff.mpr (hcovers.defined line hline)
    have hapart := hsource.apart_of_mem_definitionsInScope hvisible
    exact ⟨hapart.1, hapart.2.2⟩
  have htwin := source.lockstep_eval hsource lax (source.stepBound (.fresh limits' owner')) steps
    ledger _ context (.fresh limits' owner') id hcovers.chronicle hclear hsituated.admits habreast
    hshares
  have hends := source.eval_ne_unfinished hsource (nesting_lt_of_reached hsource hreached)
  have hends' := source.eval_ne_unfinished hsource
    (source.nesting_lt_stepBound id (.fresh limits' owner'))
  rw [evaluate]
  generalize source.eval steps id context = outcome at htwin hends ⊢
  generalize source.eval (source.stepBound (.fresh limits' owner')) id (.fresh limits' owner') =
    outcome' at htwin hends' ⊢
  cases htwin with
  | value hprogress habreast' hrelated => exact .inr ⟨_, habreast'.oneToOne, hrelated.1⟩
  | error _ _ hfault hspan => exact .inr (.inr ⟨_, rfl, hfault.symm, hspan.symm⟩)
  | unfinishedLeft => exact absurd rfl hends
  | unfinishedRight => exact absurd rfl hends'
  | overflowLeft _ hover => exact .inl hover
  | overflowRight _ hover =>
      cases outcome with
      | value value later => exact .inl ⟨_, rfl, hover⟩
      | error error later => exact .inr (.inl ⟨_, rfl, hover⟩)
      | unfinished => exact hends rfl

/-- A statement that reads a bind which reads another one. -/
theorem evaluate_direct_of_chain :
    ∃ source statements node context,
      (parse "<code>" "a: \"x\"\nb: a\nb = a" .empty).1 = .ok source ∧
      source.kind source.root = .block statements ∧ (source.list statements)[2]? = some node ∧
      source.Reached (.fresh {} 0) (source.stepBound (.fresh {} 0) - 1) [source.root] node context ∧
      source.Outside node ∧
      AgreesWith (source.eval (source.stepBound (.fresh {} 0) - 1) node context)
        (source.evaluate node (.fresh ⟨1⟩ 7)).1 := by
  have hfacts : (parse "<code>" "a: \"x\"\nb: a\nb = a" .empty).1.toOption.bind
      (fun source => some (source.kind source.root, source.list ⟨0, 3⟩,
        (((Context.fresh {} 0).enter ⟨.block, source.span source.root⟩).toOption.bind fun inner =>
          valueOf? (evalSequence (source.eval (source.stepBound (.fresh {} 0) - 1)) .none
            [⟨1⟩, ⟨3⟩] inner)).isSome)) =
      some (.block ⟨0, 3⟩, [⟨1⟩, ⟨3⟩, ⟨6⟩], true) := by decide +kernel
  obtain ⟨source, h, hread⟩ := exists_of_toOption_bind hfacts
  obtain ⟨hkind, hread⟩ := Prod.mk.inj (Option.some.inj hread)
  obtain ⟨hlist, hran⟩ := Prod.mk.inj hread
  obtain ⟨last, hlast⟩ := Option.isSome_iff_exists.mp hran
  obtain ⟨inner, henter, hvalue⟩ := exists_of_toOption_bind hlast
  obtain ⟨later, hbefore⟩ := exists_of_valueOf?_eq_some hvalue
  have hsource := wellFormed_of_parse h
  have hsteps : source.stepBound (.fresh {} 0) = source.stepBound (.fresh {} 0) - 1 + 1 := by
    have := source.nesting_lt_stepBound source.root (.fresh {} 0)
    omega
  have hreached : source.Reached (.fresh {} 0) (source.stepBound (.fresh {} 0) - 1) [source.root]
      ⟨6⟩ later :=
    .call (hsteps ▸ .root) (.statement hkind hlist henter hbefore)
  have hmem : ⟨6⟩ ∈ source.children source.root := by
    rw [WellFormed.children_of_block hkind, hlist]
    decide
  have houtside : source.Outside ⟨6⟩ := by
    intro top definition htop hunder
    rcases (hsource.under_iff_of_mem_children hmem).mp hunder with rfl | hunder
    · cases hkind.symm.trans htop
    · exact hsource.not_under_of_parent?_eq_none hsource.parent?_root top hunder
  exact ⟨source, ⟨0, 3⟩, ⟨6⟩, later, h, hkind, congrArg (·[2]?) hlist, hreached, houtside,
    evaluate_direct h {} ⟨1⟩ 0 7 hreached houtside⟩

end Bindery.Source
