import Bindery.Proofs.Eval.Direct
import Bindery.Proofs.Eval.Renaming
import Bindery.Proofs.Eval.Shape
import Mathlib.Data.Nat.Find

/-!
The depth limit as a threshold. A run that stays within its limit goes the same way under every
higher one, and a run that exceeds its limit fails with just that error. So there is a least limit
under which a node has an answer, if there is any at all, and from there on the answer stays.
-/

namespace Bindery

/-- The context under another depth limit. -/
def Context.limited (context : Context) (limit : Nat) : Context :=
  { context with callStack := { context.callStack with maxDepth := limit } }

namespace Context

theorem record_limited (context : Context) (limit : Nat) (bind : NodeId) (value : Value) :
    (context.limited limit).record bind value = (context.record bind value).limited limit := by
  obtain ⟨callStack, frames, demanded, owner, built⟩ := context
  cases frames <;> rfl

theorem maxDepth_record (context : Context) (bind : NodeId) (value : Value) :
    (context.record bind value).maxDepth = context.maxDepth := by
  obtain ⟨callStack, frames, demanded, owner, built⟩ := context
  cases frames <;> rfl

end Context

/-- What an outcome under the limit `low` tells of the outcome under the limit `high`: unless the
lower limit is exceeded they are the same. Nothing is said of what is left unfinished. -/
inductive Outcome.Spares {α : Type} (low high : Nat) : Outcome α → Outcome α → Prop
  | value {result later} : later.maxDepth = low →
      Spares low high (.value result later) (.value result (later.limited high))
  | error {failure later} : later.maxDepth = low →
      Spares low high (.error failure later) (.error failure (later.limited high))
  | overflow {failure later outcome'} : failure.fault = .stackOverflow low →
      Spares low high (.error failure later) outcome'
  | unfinished {outcome'} : Spares low high .unfinished outcome'

namespace Step

/-- Under a higher limit the second step comes to the same as the first one, as far as that stays
within its limit. -/
def Spares (low high : Nat) (α : Type) (context : Context) (step step' : Step α) : Prop :=
  context.maxDepth = low → (step context).Spares low high (step' (context.limited high))

theorem spares_inFrame {low high : Nat} (hle : low ≤ high) {α : Type} {context : Context}
    {frame : CallFrame} (interner : Interner) {step step' : Step α}
    (h : ∀ inner, context.enter frame = .ok inner → Spares low high α inner step step') :
    Spares low high α context (Step.inFrame interner frame step)
      (Step.inFrame interner frame step') := by
  intro hlow
  simp only [Step.inFrame]
  cases henter : context.enter frame with
  | error failure =>
      obtain ⟨-, rfl⟩ := Context.enter_eq_error.mp henter
      exact .overflow (congrArg Fault.stackOverflow hlow)
  | ok inner =>
      obtain ⟨hlt, hinner⟩ := Context.enter_eq_ok.mp henter
      have hlt' : context.depth < high := by omega
      have henter' : (context.limited high).enter frame = .ok (inner.limited high) :=
        Context.enter_eq_ok.mpr ⟨hlt', by rw [hinner]; rfl⟩
      have hstep := h inner henter (by rw [hinner]; exact hlow)
      rw [henter']
      simp only
      generalize step inner = outcome at hstep ⊢
      generalize step' (inner.limited high) = outcome' at hstep ⊢
      cases hstep with
      | value hlater => exact .value hlater
      | error hlater => exact .error hlater
      | overflow hfault => exact .overflow ((CallStack.fault_attach ..).trans hfault)
      | unfinished => exact .unfinished

theorem congruence_spares {low high : Nat} (hle : low ≤ high) :
    FullCongruence (Spares low high) where
  pure _ _ hlow := .value hlow
  fail _ _ hlow := .error hlow
  record context bind value hlow := by
    simp only [Step.record, Context.record_limited]
    exact .value (by rw [Context.maxDepth_record, hlow])
  lookup? _ _ hlow := .value hlow
  keep _ _ _ hlow := .value hlow
  build _ _ _ _ hlow := .value hlow
  bind {α β context first first' next next'} hfirst hnext hlow := by
    rw [bind_apply, bind_apply]
    have houtcome := hfirst hlow
    cases h : first context with
    | value result later =>
        rw [h] at houtcome
        generalize first' (context.limited high) = outcome' at houtcome ⊢
        cases houtcome with
        | value hlater => exact hnext result later h hlater
    | error failure later =>
        rw [h] at houtcome
        generalize first' (context.limited high) = outcome' at houtcome ⊢
        cases houtcome with
        | error hlater => exact .error hlater
        | overflow hfault => exact .overflow hfault
    | unfinished => exact .unfinished
  inFrame {_ _ _} interner {_ _} h := spares_inFrame hle interner h

theorem Spares.located {low high : Nat} {α : Type} {context : Context} {step step' : Step α}
    (h : Spares low high α context step step') (interner : Interner) (span : Span) :
    Spares low high α context (Step.located interner span step)
      (Step.located interner span step') := by
  intro hlow
  have hstep := h hlow
  simp only [Step.located]
  generalize step context = outcome at hstep ⊢
  generalize step' (context.limited high) = outcome' at hstep ⊢
  cases hstep with
  | value hlater => exact .value hlater
  | error hlater => exact .error hlater
  | overflow hfault => exact .overflow ((CallStack.fault_attach ..).trans hfault)
  | unfinished => exact .unfinished

end Step

namespace Source

variable {source : Source}

theorem spares_eval {low high : Nat} (hle : low ≤ high) (steps : Nat) (id : NodeId)
    (context : Context) :
    Step.Spares low high Value context (source.eval steps id) (source.eval steps id) := by
  induction steps generalizing id context with
  | zero => exact fun _ => .unfinished
  | succ steps ih =>
      have hkind : Step.Spares low high Value context (source.evalKind (source.eval steps) id)
          (source.evalKind (source.eval steps) id) :=
        evalKind_congr_of_calls (Step.congruence_spares hle) fun _ node later _ => ih node later
      exact hkind.located _ _

/-- The answer is an error of a call stack that exceeds the given limit. -/
def OverflowsAt (limit : Nat) (answer : Value) : Prop :=
  ∃ error : EvalError, answer = .error error ∧ error.fault = .stackOverflow limit

/-- Raising the limit changes no answer but that the limit was exceeded. -/
theorem evaluate_limited (hsource : source.WellFormed) (id : NodeId) (context : Context)
    {high : Nat} (hle : context.maxDepth ≤ high) :
    OverflowsAt context.maxDepth (source.evaluate id context).1 ∨
      (source.evaluate id (context.limited high)).1 = (source.evaluate id context).1 := by
  have hspares := source.spares_eval hle (source.stepBound context) id context rfl
  have hends := source.eval_ne_unfinished hsource (source.nesting_lt_stepBound id context)
  have hbound : source.stepBound context ≤ source.stepBound (context.limited high) :=
    Nat.mul_le_mul_right _ (Nat.add_le_add_right (Nat.sub_le_sub_right hle _) 1)
  have hmore (h : source.eval (source.stepBound context) id (context.limited high) ≠ .unfinished) :=
    source.eval_of_le hbound h
  rw [evaluate, evaluate]
  generalize source.eval (source.stepBound context) id context = outcome at hspares hends ⊢
  generalize source.eval (source.stepBound context) id (context.limited high) = outcome'
    at hspares hmore
  cases hspares with
  | value _ =>
      rw [hmore (Step.value_ne_unfinished _ _)]
      exact .inr rfl
  | error _ =>
      rw [hmore (Step.error_ne_unfinished _ _)]
      exact .inr rfl
  | overflow hfault => exact .inl ⟨_, rfl, hfault⟩
  | unfinished => exact absurd rfl hends

/-- All overflows are of the limit of the context. -/
theorem overflowsAt_of_overflowed (hsource : source.WellFormed) (id : NodeId) (limits : Limits)
    (owner : Nat) (h : Overflowed (source.evaluate id (.fresh limits owner)).1) :
    OverflowsAt limits.maxDepth (source.evaluate id (.fresh limits owner)).1 := by
  obtain ⟨error, herror, limit, hlimit⟩ := h
  suffices heq : limit = limits.maxDepth from ⟨error, herror, heq ▸ hlimit⟩
  have hkeeps := source.governs_shapes hsource limits.maxDepth
    (source.stepBound (.fresh limits owner)) id () (.fresh limits owner)
    ⟨.fresh limits owner, rfl⟩
  rw [evaluate] at herror
  cases houtcome : source.eval (source.stepBound (.fresh limits owner)) id
      (.fresh limits owner) with
  | value value later =>
      -- A value is never an error.
      rw [houtcome] at hkeeps herror
      obtain ⟨_, -, -, hshaped, -⟩ := hkeeps
      obtain rfl : value = .error error := herror
      exact hshaped.elim
  | error failure later =>
      rw [houtcome] at hkeeps herror
      obtain ⟨_, -, -, hadmits⟩ := hkeeps
      obtain rfl : failure = error := Value.error.inj herror
      exact hadmits limit hlimit
  | unfinished =>
      rw [houtcome] at herror
      obtain rfl := Value.error.inj herror
      exact (Fault.stackOverflow.inj hlimit).symm

theorem OverflowsAt.of_alike {limit : Nat} {answer answer' : Value} {pairing : Pairing}
    (h : OverflowsAt limit answer) (halike : answer.Alike pairing answer') :
    OverflowsAt limit answer' := by
  obtain ⟨error, rfl, hfault⟩ := h
  obtain rfl : answer' = .error error := halike
  exact ⟨error, rfl, hfault⟩

/-- Whether a fresh context exceeds its limit does not depend on its owner. -/
theorem OverflowsAt.of_owner {id : NodeId} {limit : Nat} {owner : Nat}
    (h : OverflowsAt limit (source.evaluate id (.fresh ⟨limit⟩ owner)).1) (owner' : Nat) :
    OverflowsAt limit (source.evaluate id (.fresh ⟨limit⟩ owner')).1 := by
  obtain ⟨pairing, -, halike⟩ := source.evaluate_fresh_alike id ⟨limit⟩ owner owner'
  exact h.of_alike halike

/-- The threshold is the least depth limit under which a node, evaluated in a fresh context, has an
answer, and from there on it has one answer. -/
structure AnswersFrom (source : Source) (id : NodeId) (threshold : Nat) : Prop where
  /-- Every lower limit is exceeded. -/
  below : ∀ limit owner, limit < threshold →
    OverflowsAt limit (source.evaluate id (.fresh ⟨limit⟩ owner)).1
  /-- No limit is exceeded from the threshold on. -/
  above : ∀ limit owner, threshold ≤ limit →
    ¬ Overflowed (source.evaluate id (.fresh ⟨limit⟩ owner)).1
  /-- The answers are the same error at the same place with the same backtrace, or the same value up
  to a one-to-one correspondence of identities. -/
  same : ∀ limit limit' owner owner', threshold ≤ limit → threshold ≤ limit' →
    ∃ pairing : Pairing, pairing.OneToOne ∧
      (source.evaluate id (.fresh ⟨limit⟩ owner)).1.Alike pairing
        (source.evaluate id (.fresh ⟨limit'⟩ owner')).1

/-- A node evaluated in a fresh context exceeds every limit, or it exceeds just the limits below a
threshold and has one answer from there on. -/
theorem evaluate_threshold {name text : String} {interner : Interner} {source : Source}
    (h : (parse name text interner).1 = .ok source) (id : NodeId) :
    (∀ limit owner, OverflowsAt limit (source.evaluate id (.fresh ⟨limit⟩ owner)).1) ∨
      ∃ threshold, source.AnswersFrom id threshold := by
  classical
  have hsource := wellFormed_of_parse h
  by_cases hanswer : ∃ limit, ¬ OverflowsAt limit (source.evaluate id (.fresh ⟨limit⟩ 0)).1
  · -- From the least limit with an answer on, the answer is the one that this limit gives.
    let threshold := Nat.find hanswer
    have hwithin (owner : Nat) :
        ¬ OverflowsAt threshold (source.evaluate id (.fresh ⟨threshold⟩ owner)).1 :=
      fun hover => Nat.find_spec hanswer (hover.of_owner 0)
    have hstays (limit owner : Nat) (hle : threshold ≤ limit) :
        (source.evaluate id (.fresh ⟨limit⟩ owner)).1 =
          (source.evaluate id (.fresh ⟨threshold⟩ owner)).1 :=
      (evaluate_limited hsource id (.fresh ⟨threshold⟩ owner) hle).resolve_left
        (hwithin owner)
    refine .inr ⟨threshold, { below := ?below, above := ?above, same := ?same }⟩
    case below =>
      intro limit owner hlt
      exact (Classical.not_not.mp (Nat.find_min hanswer hlt)).of_owner owner
    case above =>
      intro limit owner hle hover
      rw [hstays limit owner hle] at hover
      exact hwithin owner (overflowsAt_of_overflowed hsource id ⟨threshold⟩ owner hover)
    case same =>
      intro limit limit' owner owner' hle hle'
      rw [hstays limit owner hle, hstays limit' owner' hle']
      exact source.evaluate_fresh_alike id ⟨threshold⟩ owner owner'
  · exact .inl fun limit owner => (Classical.not_not.mp fun hnot => hanswer ⟨limit, hnot⟩).of_owner
      owner

/-- A bind whose value is a block: one frame is that of the program, the other that of the block. -/
theorem evaluate_threshold_of_bind :
    ∃ source, (parse "<code>" "a: (\"x\")\na" .empty).1 = .ok source ∧
      source.AnswersFrom source.root 2 ∧
      (source.evaluate source.root (.fresh ⟨2⟩ 0)).1 = .text "x" := by
  have hfacts : (parse "<code>" "a: (\"x\")\na" .empty).1.toOption.bind
      (fun source => some (decide (Overflowed (source.evaluate source.root (.fresh ⟨1⟩ 0)).1),
        (source.evaluate source.root (.fresh ⟨2⟩ 0)).1.asText?)) = some (true, some "x") := by
    decide +kernel
  obtain ⟨source, h, hread⟩ := exists_of_toOption_bind hfacts
  obtain ⟨hover, hread⟩ := Prod.mk.inj (Option.some.inj hread)
  have hanswer := Value.eq_text_of_asText? hread
  have hwithin (hover : OverflowsAt 2 (source.evaluate source.root (.fresh ⟨2⟩ 0)).1) : False := by
    obtain ⟨error, herror, -⟩ := hover
    rw [hanswer] at herror
    cases herror
  rcases evaluate_threshold h source.root with hall | ⟨threshold, hfrom⟩
  · exact (hwithin (hall 2 0)).elim
  · have hlow : 1 < threshold :=
      Nat.lt_of_not_le fun hle => hfrom.above 1 0 hle (of_decide_eq_true hover)
    have hhigh : threshold ≤ 2 := Nat.le_of_not_lt fun hlt => hwithin (hfrom.below 2 0 hlt)
    obtain rfl : threshold = 2 := Nat.le_antisymm hhigh hlow
    exact ⟨source, h, hfrom, hanswer⟩

end Source
end Bindery
