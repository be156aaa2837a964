import Bindery.Proofs.Eval.Opaque
import Bindery.Proofs.Scope.Rules

/-!
Why evaluation ends. What an evaluation comes to depends on its calls alone, and along every call
the frames that may still be entered and the number of the node go down lexicographically: children
and visible binds have smaller numbers, and nothing of a structure is evaluated before its frame has
been entered. So a bind whose evaluation is in progress is asked for again only within a further
construction, and of these there can be only so many.
-/

namespace Bindery

/-- How many further frames may be entered. -/
def Context.room (context : Context) : Nat := context.maxDepth - context.depth

namespace Source

variable {source : Source}

/-- `source.InProgress top start steps entered id context`: the evaluation of `id` in `context` is
in progress within that of `top` in `start`, through calls that have entered frames for the blocks
and structures `entered`, the innermost first. From there evaluations may be nested at most `steps`
deep. -/
inductive InProgress (source : Source) (top : NodeId) (start : Context) :
    (steps : Nat) → (entered : List NodeId) → NodeId → Context → Prop
  | top {steps} : InProgress source top start steps [] top start
  | call {steps live id context entered node later} :
      InProgress source top start (steps + 1) live id context →
      source.Calls (source.eval steps) id context entered node later →
      InProgress source top start steps (entered.toList ++ live) node later

/-- An evaluation that comes to a value or an error, however deeply further evaluations may be
nested, if only as deeply as the bound. -/
def EndsWith (source : Source) (id : NodeId) (context : Context) (value : Value)
    (later : Context) : Prop :=
  (∀ steps, source.stepBound context ≤ steps →
    source.eval steps id context = .value value later) ∨
  ∃ error, value = .error error ∧ ∀ steps, source.stepBound context ≤ steps →
    source.eval steps id context = .error error later

section

variable {steps : Nat} {id node : NodeId} {context later : Context} {entered : Option NodeId}

/-- An evaluator that agrees at the calls agrees on the node. -/
theorem evalKind_eq_of_calls {recur : NodeId → Step Value}
    (h : ∀ entered node later, source.Calls (source.eval steps) id context entered node later →
      source.eval steps node later = recur node later) :
    source.evalKind (source.eval steps) id context = source.evalKind recur id context :=
  evalKind_congr_of_calls Step.congruence_eq h

theorem Constructs.enters {structureId : NodeId} {definition : StructureNode} {values : List Value}
    {inner : Context}
    (h : source.Constructs (source.eval steps) id context structureId definition values inner) :
    inner.maxDepth = context.maxDepth ∧ inner.depth = context.depth + 1 ∧
      inner.depth ≤ context.maxDepth := by
  have hdescends : source.Descends id context (some structureId) id inner :=
    h.descends (source.eval_keepsCallStack steps) rfl
  exact hdescends

theorem Calls.maxDepth_eq (hsource : source.WellFormed)
    (h : source.Calls (source.eval steps) id context entered node later) :
    later.maxDepth = context.maxDepth := by
  have hdescends := h.descends hsource (source.eval_keepsCallStack steps)
  cases entered with
  | none => rw [Context.maxDepth, hdescends.1, Context.maxDepth]
  | some structureId => exact hdescends.1

theorem Calls.depth_eq (hsource : source.WellFormed)
    (h : source.Calls (source.eval steps) id context entered node later) :
    later.depth = context.depth + entered.toList.length := by
  have hdescends := h.descends hsource (source.eval_keepsCallStack steps)
  cases entered with
  | none => rw [Context.depth, hdescends.1, Context.depth, Option.toList_none, List.length_nil,
      Nat.add_zero]
  | some structureId => exact hdescends.2.1

/-- The frames that may still be entered and the number of the node go down lexicographically. -/
theorem Calls.lex (hsource : source.WellFormed)
    (h : source.Calls (source.eval steps) id context entered node later) :
    Prod.Lex (· < ·) (· < ·) (later.room, node.index) (context.room, id.index) := by
  have hdescends := h.descends hsource (source.eval_keepsCallStack steps)
  cases entered with
  | none =>
      obtain ⟨hcallStack, hlt, -⟩ := hdescends
      have hroom : later.room = context.room := by
        simp only [Context.room, Context.maxDepth, Context.depth, hcallStack]
      rw [hroom]
      exact .right _ hlt
  | some structureId =>
      obtain ⟨hmax, hdepth, hle⟩ := hdescends
      refine .left _ _ ?_
      simp only [Context.room]
      omega

/-- A call leads to a node with a smaller number unless a structure has been entered. -/
theorem Calls.index_lt (hsource : source.WellFormed)
    (h : source.Calls (source.eval steps) id context entered node later) :
    node.index < id.index ∨ ∃ structureId definition, entered = some structureId ∧
      source.kind structureId = .structureDef definition := by
  cases entered with
  | none => exact .inl (h.descends hsource (source.eval_keepsCallStack steps)).2.1
  | some top =>
      cases h with
      | statement hkind hlist henter hbefore =>
          refine .inl (hsource.index_lt_of_mem_children ?_)
          rw [WellFormed.children_of_block hkind, hlist]
          exact List.mem_append_right _ List.mem_cons_self
      | default hconstructs | bodyStatement hconstructs =>
          exact .inr ⟨_, _, rfl, structure?_eq_some.mp hconstructs.defined⟩

end

namespace InProgress

variable {top : NodeId} {start : Context} {steps : Nat} {live : List NodeId} {id : NodeId}
  {context : Context}

theorem depth_eq (hsource : source.WellFormed)
    (h : source.InProgress top start steps live id context) :
    context.maxDepth = start.maxDepth ∧ context.depth = start.depth + live.length := by
  induction h with
  | top => exact ⟨rfl, rfl⟩
  | call _ hcall ih =>
      refine ⟨(hcall.maxDepth_eq hsource).trans ih.1, ?_⟩
      rw [hcall.depth_eq hsource, ih.2, List.length_append]
      omega

/-- No more frames are entered than there was room for. -/
theorem length_le (hsource : source.WellFormed)
    (h : source.InProgress top start steps live id context) : live.length ≤ start.room := by
  induction h with
  | top => exact Nat.zero_le _
  | @call steps live id context entered node later hbefore hcall ih =>
      have hdepths := hbefore.depth_eq hsource
      have hdescends := hcall.descends hsource (source.eval_keepsCallStack steps)
      cases entered with
      | none => exact ih
      | some structureId =>
          obtain ⟨-, hdepth, hle⟩ := hdescends
          simp only [Context.room, Option.toList_some, List.singleton_append, List.length_cons]
          omega

/-- Without a construction the numbers only go down. -/
theorem index_le (hsource : source.WellFormed)
    (h : source.InProgress top start steps live id context) :
    id.index ≤ top.index ∨
      ∃ structureId ∈ live, ∃ definition, source.kind structureId = .structureDef definition := by
  induction h with
  | top => exact .inl (Nat.le_refl _)
  | call _ hcall ih =>
      rcases ih with hle | ⟨structureId, hmem, hkind⟩
      · rcases hcall.index_lt hsource with hlt | ⟨structureId, definition, rfl, hkind⟩
        · exact .inl (Nat.le_trans (Nat.le_of_lt hlt) hle)
        · exact .inr ⟨structureId, List.mem_append_left _ (List.mem_singleton.mpr rfl), definition,
            hkind⟩
      · exact .inr ⟨structureId, List.mem_append_right _ hmem, hkind⟩

/-- A node whose evaluation is in progress is evaluated again only within a construction that has
been entered since. -/
theorem exists_construction (hsource : source.WellFormed)
    (h : source.InProgress top start (steps + 1) live id context) {entered : Option NodeId}
    {later : Context} (hcall : source.Calls (source.eval steps) id context entered top later) :
    ∃ structureId ∈ entered.toList ++ live, ∃ definition,
      source.kind structureId = .structureDef definition := by
  rcases h.index_le hsource with hle | ⟨structureId, hmem, hkind⟩
  · rcases hcall.index_lt hsource with hlt | ⟨structureId, definition, rfl, hkind⟩
    · omega
    · exact ⟨structureId, List.mem_append_left _ (List.mem_singleton.mpr rfl), definition, hkind⟩
  · exact ⟨structureId, List.mem_append_right _ hmem, hkind⟩

end InProgress

theorem endsWith_evaluate (hsource : source.WellFormed) (id : NodeId) (context : Context) :
    source.EndsWith id context (source.evaluate id context).1 (source.evaluate id context).2 := by
  have hends := source.eval_ne_unfinished hsource (source.nesting_lt_stepBound id context)
  have hsame (steps : Nat) (hsteps : source.stepBound context ≤ steps) :=
    eval_of_le hsteps hends
  rw [evaluate]
  cases houtcome : source.eval (source.stepBound context) id context with
  | value value later => exact .inl fun steps hsteps => (hsame steps hsteps).trans houtcome
  | error error later => exact .inr ⟨error, rfl, fun steps hsteps =>
      (hsame steps hsteps).trans houtcome⟩
  | unfinished => exact absurd houtcome hends

/-- Where no further frame may be entered, nothing is constructed. -/
theorem construct_refused {recur : NodeId → Step Value} {structureId : NodeId}
    {definition : StructureNode} (hstructure : source.structure? structureId = some definition)
    {arguments : List Value} (hlength : arguments.length ≤ (source.list definition.inputs).length)
    (callSpan : Span) {context : Context} (hfull : context.room = 0) :
    source.construct recur structureId arguments callSpan context =
      .error { fault := .stackOverflow context.maxDepth } context := by
  have hrefused (frame : CallFrame) :
      context.enter frame = .error { fault := .stackOverflow context.maxDepth } :=
    Context.enter_eq_error.mpr ⟨by simp only [Context.room] at hfull; omega, rfl⟩
  simp only [construct, hstructure, if_neg (Nat.not_lt.mpr hlength), Step.inFrame, hrefused]

/-- Why and how the evaluation of a source ends. -/
structure Terminates (source : Source) : Prop where
  /-- What a node comes to depends on the calls alone. -/
  calls : ∀ steps id context recur,
    (∀ entered node later, source.Calls (source.eval steps) id context entered node later →
      source.eval steps node later = recur node later) →
    source.evalKind (source.eval steps) id context = source.evalKind recur id context
  child_lt : ∀ id, ∀ child ∈ source.children id, child.index < id.index
  visible_lt : ∀ id, ∀ definition ∈ source.definitionsInScope id, definition.node.index < id.index
  /-- A construction enters a frame before anything of the structure is evaluated. -/
  enters : ∀ steps id context structureId definition values inner,
    source.Constructs (source.eval steps) id context structureId definition values inner →
    inner.maxDepth = context.maxDepth ∧ inner.depth = context.depth + 1 ∧
      inner.depth ≤ context.maxDepth
  /-- Every call descends. -/
  descends : ∀ steps id context entered node later,
    source.Calls (source.eval steps) id context entered node later →
    Prod.Lex (· < ·) (· < ·) (later.room, node.index) (context.room, id.index)
  /-- No node whose evaluation is in progress is evaluated again outside a further construction. -/
  reenters : ∀ top start steps live id context entered later,
    source.InProgress top start (steps + 1) live id context →
    source.Calls (source.eval steps) id context entered top later →
    ∃ structureId ∈ entered.toList ++ live, ∃ definition,
      source.kind structureId = .structureDef definition
  /-- Nested evaluations are as many frames deeper as they have entered, which are at most as many
  as there was room for. -/
  bounded : ∀ top start steps live id context,
    source.InProgress top start steps live id context →
    context.depth = start.depth + live.length ∧ live.length ≤ start.room
  /-- Structures are constructed or the construction fails, however they construct themselves. -/
  constructs : ∀ steps structureId arguments callSpan context, source.Suffices steps context →
    source.construct (source.eval steps) structureId arguments callSpan context ≠ .unfinished
  /-- A construction for which there is no room is the error that says so. -/
  refuses : ∀ steps structureId definition arguments callSpan context,
    source.structure? structureId = some definition →
    arguments.length ≤ (source.list definition.inputs).length → context.room = 0 →
    source.construct (source.eval steps) structureId arguments callSpan context =
      .error { fault := .stackOverflow context.maxDepth } context
  /-- The evaluation of a node in a context is what it comes to without a bound. -/
  evaluates : ∀ id context,
    source.EndsWith id context (source.evaluate id context).1 (source.evaluate id context).2

/-- The evaluation of a program ends, at every node and in every context. -/
theorem terminates_of_parse {name text : String} {interner : Interner} {source : Source}
    (h : (parse name text interner).1 = .ok source) : source.Terminates := by
  have hsource := wellFormed_of_parse h
  exact {
    calls := fun _ _ _ _ => evalKind_eq_of_calls
    child_lt := fun _ _ => hsource.index_lt_of_mem_children
    visible_lt := fun _ _ hmem => hsource.index_lt_of_visible (mem_definitionsInScope_iff.mp hmem)
    enters := fun _ _ _ _ _ _ _ hconstructs => hconstructs.enters
    descends := fun _ _ _ _ _ _ hcall => hcall.lex hsource
    reenters := fun _ _ _ _ _ _ _ _ hprogress => hprogress.exists_construction hsource
    bounded := fun _ _ _ _ _ _ hprogress =>
      ⟨(hprogress.depth_eq hsource).2, hprogress.length_le hsource⟩
    constructs := fun _ structureId arguments callSpan _ hsteps =>
      source.construct_ne_unfinished hsource hsteps structureId arguments callSpan
    refuses := fun _ _ _ _ callSpan _ hstructure hlength =>
      construct_refused hstructure hlength callSpan
    evaluates := endsWith_evaluate hsource }

/-- A structure that applies itself to itself. -/
theorem terminates_of_parse_of_recursion :
    ∃ source, (parse "<code>" "•F(f) (y: f(f))\nF(F)" .empty).1 = .ok source ∧
      source.Terminates ∧
      ∃ error, (source.evaluateRoot (.fresh ⟨3⟩ 0)).1 = .error error ∧
        error.fault = .stackOverflow 3 := by
  have hfacts : (parse "<code>" "•F(f) (y: f(f))\nF(F)" .empty).1.toOption.bind
      (fun source => (source.evaluateRoot (.fresh ⟨3⟩ 0)).1.asError?.map (·.fault)) =
      some (.stackOverflow 3) := by decide +kernel
  obtain ⟨source, h, hfault⟩ := exists_of_toOption_bind hfacts
  obtain ⟨error, herror, hfault⟩ := Option.map_eq_some_iff.mp hfault
  refine ⟨source, h, terminates_of_parse h, error, ?_, hfault⟩
  generalize (source.evaluateRoot (.fresh ⟨3⟩ 0)).1 = value at herror
  cases value with
  | error error' => exact congrArg Value.error (Option.some.inj herror)
  | none | text | number | boolean | structureRef | inst => cases herror

end Source
end Bindery
