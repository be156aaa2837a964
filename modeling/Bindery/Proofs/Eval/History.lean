import Bindery.Proofs.Eval.Discipline

/-!
Contexts that are used again. A context outlives an evaluation, whatever that comes to, and further
nodes may be evaluated in it, in any order. All that is evaluated on the way, the nodes asked for
from outside and those that their evaluations ask for, starts from a context in order if the first
context was in order.
-/

namespace Bindery

namespace Source

variable {source : Source}

/-- The context after nodes have been evaluated in it, one after the other. -/
def used (source : Source) (history : List NodeId) (context : Context) : Context :=
  history.foldl (fun context id => (source.evaluate id context).2) context

/-- While `top` is evaluated in `start`, the node `id` is evaluated in `context`. From there
evaluations may be nested at most `steps` deep. -/
inductive Asks (source : Source) (top : NodeId) (start : Context) :
    (steps : Nat) → NodeId → Context → Prop
  | top : Asks source top start (source.stepBound start) top start
  | call {steps id context entered node later} : Asks source top start (steps + 1) id context →
      source.Calls (source.eval steps) id context entered node later →
      Asks source top start steps node later

/-- While the nodes of a history are evaluated one after the other, `id` is evaluated in
`context`. -/
def Performs (source : Source) (start : Context) (history : List NodeId) (steps : Nat)
    (id : NodeId) (context : Context) : Prop :=
  ∃ before top after, history = before ++ top :: after ∧
    source.Asks top (source.used before start) steps id context

theorem used_append_singleton (history : List NodeId) (id : NodeId) (context : Context) :
    source.used (history ++ [id]) context =
      (source.evaluate id (source.used history context)).2 := by
  simp only [used, List.foldl_append, List.foldl_cons, List.foldl_nil]

/-- What is left behind when an evaluation has come to an end. -/
theorem evaluate_snd {id : NodeId} {context later : Context}
    (h : (source.eval (source.stepBound context) id context).context? = some later) :
    (source.evaluate id context).2 = later := by
  rw [evaluate]
  cases houtcome : source.eval (source.stepBound context) id context with
  | value value later' =>
      rw [houtcome] at h
      cases h
      rfl
  | error failure later' =>
      rw [houtcome] at h
      cases h
      rfl
  | unfinished =>
      rw [houtcome] at h
      cases h

/-- The evaluations on the way may nest as deeply as they need to. -/
theorem nesting_lt_of_asks (hsource : source.WellFormed) {top id : NodeId}
    {start context : Context} {steps : Nat} (h : source.Asks top start steps id context) :
    source.nesting id context < steps := by
  induction h with
  | top => exact source.nesting_lt_stepBound top start
  | @call steps id context entered node later _ hcall ih =>
      have hlt := nesting_lt hsource (source.eval_keepsCallStack steps) hcall
      omega

theorem ne_unfinished_of_performs (hsource : source.WellFormed) {start context : Context}
    {history : List NodeId} {steps : Nat} {id : NodeId}
    (h : source.Performs start history steps id context) :
    source.eval steps id context ≠ .unfinished := by
  obtain ⟨before, top, after, -, hasks⟩ := h
  exact source.eval_ne_unfinished hsource (nesting_lt_of_asks hsource hasks)

end Source

namespace Discipline

open Source

variable {source : Source} {World : Type} {discipline : Discipline source World}
  {world : World} {context : Context} {recur : NodeId → Step Value}

theorem Keeps.of_value {α : Type} {post : World → α → Prop} {outcome : Outcome α} {result : α}
    {later : Context} (h : discipline.Keeps world post outcome)
    (hvalue : outcome = .value result later) :
    ∃ world', discipline.le world world' ∧ discipline.holds world' later ∧ post world' result := by
  subst hvalue
  exact h

theorem Keeps.of_context? {α : Type} {post : World → α → Prop} {outcome : Outcome α}
    {later : Context} (h : discipline.Keeps world post outcome)
    (hlater : outcome.context? = some later) :
    ∃ world', discipline.le world world' ∧ discipline.holds world' later := by
  cases outcome with
  | value result between | error failure between =>
      cases hlater
      obtain ⟨world', hle, hholds, -⟩ := h
      exact ⟨world', hle, hholds⟩
  | unfinished => cases hlater

variable (hrecur : discipline.Governs recur) (hholds : discipline.holds world context)
include hrecur hholds

/-- The frame of a construction is entered in order, with arguments in order. -/
theorem of_constructs {id structureId : NodeId} {definition : StructureNode} {values : List Value}
    {inner : Context}
    (h : source.Constructs recur id context structureId definition values inner) :
    ∃ world', discipline.le world world' ∧ discipline.holds world' inner ∧
      ∀ value ∈ values, discipline.good world' value := by
  obtain ⟨callee, arguments, name, between, later, -, hcallee, harguments, henter⟩ := h.called
  obtain ⟨world₁, hle₁, hholds₁, -⟩ := (keeps_recur hrecur hholds).of_value hcallee
  obtain ⟨world₂, hle₂, hholds₂, hvalues⟩ := (keeps_evalEach hrecur hholds₁).of_value harguments
  exact ⟨world₂, discipline.le_trans hle₁ hle₂, discipline.enter hholds₂ henter, hvalues⟩

/-- Supplying some of the inputs keeps the frame of a construction in order. -/
theorem of_supplyInputs {structureName : Name} {inputs : List NodeId} {values : List Value}
    {properties : Properties} {later : Context}
    (hvalues : ∀ value ∈ values, discipline.good world value)
    (h : source.supplyInputs recur structureName inputs values [] context =
      .value properties later) :
    ∃ world', discipline.le world world' ∧ discipline.holds world' later ∧
      ∃ bound : List (BindNode × Value), properties = Properties.ofBinds bound ∧
        bound.map Prod.fst = inputs.filterMap source.bind? ∧
        ∀ entry ∈ bound, discipline.good world' entry.2 ∧ entry.1.Accepts entry.2 := by
  have hnone (entry : BindNode × Value) (hentry : entry ∈ []) :
      discipline.good world entry.2 ∧ entry.1.Accepts entry.2 := absurd hentry List.not_mem_nil
  exact (keeps_supplyInputs hrecur hholds hvalues hnone).of_value h

/-- Every evaluation that an evaluation asks for starts in order. -/
theorem of_calls {id node : NodeId} {later : Context} {entered : Option NodeId}
    (h : source.Calls recur id context entered node later) :
    ∃ world', discipline.le world world' ∧ discipline.holds world' later := by
  have here : ∃ world', discipline.le world world' ∧ discipline.holds world' context :=
    ⟨world, discipline.le_refl world, hholds⟩
  cases h with
  | statement hkind hlist henter hbefore =>
      have hinner := discipline.enter hholds henter
      obtain ⟨world', hle, hholds', -⟩ :=
        (keeps_evalSequence hrecur hinner (discipline.good_none world)).of_value hbefore
      exact ⟨world', hle, hholds'⟩
  | value | demanded | subject | callee | left | operand | condition => exact here
  | argument hkind hlist hcallee hbefore =>
      obtain ⟨world₁, hle₁, hholds₁, -⟩ := (keeps_recur hrecur hholds).of_value hcallee
      obtain ⟨world₂, hle₂, hholds₂, -⟩ := (keeps_evalEach hrecur hholds₁).of_value hbefore
      exact ⟨world₂, discipline.le_trans hle₁ hle₂, hholds₂⟩
  | default hconstructs hlist hbefore =>
      obtain ⟨world₁, hle₁, hholds₁, hvalues⟩ := of_constructs hrecur hholds hconstructs
      obtain ⟨world₂, hle₂, hholds₂, -⟩ := of_supplyInputs hrecur hholds₁ hvalues hbefore
      exact ⟨world₂, discipline.le_trans hle₁ hle₂, hholds₂⟩
  | bodyStatement hconstructs hinputs hlist hbefore =>
      obtain ⟨world₁, hle₁, hholds₁, hvalues⟩ := of_constructs hrecur hholds hconstructs
      obtain ⟨world₂, hle₂, hholds₂, bound, rfl, -, hbound⟩ :=
        of_supplyInputs hrecur hholds₁ hvalues hinputs
      obtain ⟨world₃, hle₃, hholds₃, -⟩ := (keeps_runBody hrecur hholds₂ hbound).of_value hbefore
      exact ⟨world₃, discipline.le_trans hle₁ (discipline.le_trans hle₂ hle₃), hholds₃⟩
  | right hkind hleft | branch hkind hleft =>
      obtain ⟨world', hle, hholds', -⟩ := (keeps_recur hrecur hholds).of_value hleft
      exact ⟨world', hle, hholds'⟩

end Discipline

namespace Discipline

open Source

variable {source : Source} {World : Type} {discipline : Discipline source World}
  {world : World} {context : Context}
  (hgoverns : ∀ steps, discipline.Governs (source.eval steps))
  (hholds : discipline.holds world context)
include hgoverns hholds

theorem of_asks {top id : NodeId} {later : Context} {steps : Nat}
    (h : source.Asks top context steps id later) :
    ∃ world', discipline.le world world' ∧ discipline.holds world' later := by
  induction h with
  | top => exact ⟨world, discipline.le_refl world, hholds⟩
  | @call steps _ _ _ _ _ _ hcall ih =>
      obtain ⟨world₁, hle₁, hholds₁⟩ := ih
      obtain ⟨world₂, hle₂, hholds₂⟩ := of_calls (hgoverns steps) hholds₁ hcall
      exact ⟨world₂, discipline.le_trans hle₁ hle₂, hholds₂⟩

theorem of_evaluate (id : NodeId) :
    ∃ world', discipline.le world world' ∧
      discipline.holds world' (source.evaluate id context).2 := by
  have hkeeps := hgoverns (source.stepBound context) id world context hholds
  rw [evaluate]
  cases houtcome : source.eval (source.stepBound context) id context with
  | value value later | error failure later =>
      exact hkeeps.of_context? (by rw [houtcome]; rfl)
  | unfinished => exact ⟨world, discipline.le_refl world, hholds⟩

theorem of_used (history : List NodeId) :
    ∃ world', discipline.le world world' ∧
      discipline.holds world' (source.used history context) := by
  induction history generalizing world context with
  | nil => exact ⟨world, discipline.le_refl world, hholds⟩
  | cons id rest ih =>
      obtain ⟨world₁, hle₁, hholds₁⟩ := of_evaluate hgoverns hholds id
      obtain ⟨world₂, hle₂, hholds₂⟩ := ih hholds₁
      exact ⟨world₂, discipline.le_trans hle₁ hle₂, hholds₂⟩

/-- Whatever is evaluated in the course of a history starts in order. -/
theorem of_performs {history : List NodeId} {id : NodeId} {later : Context} {steps : Nat}
    (h : source.Performs context history steps id later) :
    ∃ world', discipline.le world world' ∧ discipline.holds world' later := by
  obtain ⟨before, top, after, -, hasks⟩ := h
  obtain ⟨world₁, hle₁, hholds₁⟩ := of_used hgoverns hholds before
  obtain ⟨world₂, hle₂, hholds₂⟩ := of_asks hgoverns hholds₁ hasks
  exact ⟨world₂, discipline.le_trans hle₁ hle₂, hholds₂⟩

end Discipline
end Bindery
