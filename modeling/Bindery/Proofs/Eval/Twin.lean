import Bindery.Proofs.Eval.Abreast

/-!
Outcomes of two runs. Twin runs come to values, with contexts that are abreast again, or fail with
the same fault at the same place. If the comparison is lax, either may instead exceed its limit.
Nothing is said of runs that are left unfinished. The ways in which the evaluator puts steps
together make twin runs of twin runs.
-/

namespace Bindery

/-- The error is that of a call stack that exceeds its limit. -/
def EvalError.Overflows (error : EvalError) : Prop := ∃ limit, error.fault = .stackOverflow limit

instance (error : EvalError) : Decidable error.Overflows :=
  match h : error.fault with
  | .stackOverflow limit => .isTrue ⟨limit, h⟩
  | .undefinedProperty .. | .tooManyArguments .. | .missingInput .. | .typeMismatch ..
  | .undefinedName _ => .isFalse fun ⟨_, hlimit⟩ => Fault.noConfusion (h.symm.trans hlimit)

theorem EvalError.Overflows.of_fault_eq {error error' : EvalError} (h : error.Overflows)
    (hfault : error'.fault = error.fault) : error'.Overflows :=
  h.imp fun _ hlimit => hfault.trans hlimit

/-- The outcomes of two runs from contexts that are abreast. The results and the contexts left
behind are related as `related` says, by the pairing that the two runs have come to. -/
inductive Twin {α β : Type} (comparison : Comparison) (interner : Interner) (ledger : List Line)
    (own : NodeId → Prop) (pairing : Pairing) (context context' : Context)
    (related : Pairing → α → β → Context → Context → Prop) : Outcome α → Outcome β → Prop
  | value {pairing' : Pairing} {result : α} {result' : β} {later later' : Context} :
      Progress ledger own pairing context context' pairing' later later' →
      Abreast comparison ledger pairing' later later' →
      related pairing' result result' later later' →
      Twin comparison interner ledger own pairing context context' related (.value result later)
        (.value result' later')
  | error {error error' : EvalError} {later later' : Context} :
      later.callStack = context.callStack → later'.callStack = context'.callStack →
      error.fault = error'.fault → error.span = error'.span →
      comparison.Traces interner error.backtrace error'.backtrace →
      Twin comparison interner ledger own pairing context context' related (.error error later)
        (.error error' later')
  | unfinishedLeft {outcome' : Outcome β} :
      Twin comparison interner ledger own pairing context context' related .unfinished outcome'
  | unfinishedRight {outcome : Outcome α} :
      Twin comparison interner ledger own pairing context context' related outcome .unfinished
  | overflowLeft {error : EvalError} {later : Context} {outcome' : Outcome β} : comparison.lax →
      error.Overflows →
      Twin comparison interner ledger own pairing context context' related (.error error later)
        outcome'
  | overflowRight {outcome : Outcome α} {error' : EvalError} {later' : Context} : comparison.lax →
      error'.Overflows →
      Twin comparison interner ledger own pairing context context' related outcome
        (.error error' later')

namespace Twin

variable {α β γ δ : Type} {comparison : Comparison} {interner : Interner} {ledger : List Line}
  {own own' : NodeId → Prop} {pairing pairing' : Pairing}
  {context context' between between' : Context}
  {related related' : Pairing → α → β → Context → Context → Prop}

/-- What two runs come to from where two others have come. -/
theorem after {outcome : Outcome α} {outcome' : Outcome β}
    (hprogress : Progress ledger own pairing context context' pairing' between between')
    (h : Twin comparison interner ledger own pairing' between between' related outcome outcome') :
    Twin comparison interner ledger own pairing context context' related outcome outcome' := by
  cases h with
  | value hfurther habreast hrelated => exact .value (hprogress.trans hfurther) habreast hrelated
  | error hstack hstack' hfault hspan htraces =>
      exact .error (hstack.trans hprogress.left.callStack) (hstack'.trans hprogress.right.callStack)
        hfault hspan htraces
  | unfinishedLeft => exact .unfinishedLeft
  | unfinishedRight => exact .unfinishedRight
  | overflowLeft hlax hover => exact .overflowLeft hlax hover
  | overflowRight hlax hover => exact .overflowRight hlax hover

theorem weaken {outcome : Outcome α} {outcome' : Outcome β}
    (h : Twin comparison interner ledger own pairing context context' related outcome outcome')
    (hown : ∀ bind, own bind → own' bind)
    (hrelated : ∀ {pairing' result result' later later'},
      Progress ledger own pairing context context' pairing' later later' →
      related pairing' result result' later later' →
      related' pairing' result result' later later') :
    Twin comparison interner ledger own' pairing context context' related' outcome outcome' := by
  cases h with
  | value hprogress habreast hresult =>
      exact .value (hprogress.mono hown) habreast (hrelated hprogress hresult)
  | error hstack hstack' hfault hspan htraces => exact .error hstack hstack' hfault hspan htraces
  | unfinishedLeft => exact .unfinishedLeft
  | unfinishedRight => exact .unfinishedRight
  | overflowLeft hlax hover => exact .overflowLeft hlax hover
  | overflowRight hlax hover => exact .overflowRight hlax hover

theorem pure {result : α} {result' : β}
    (habreast : Abreast comparison ledger pairing context context')
    (hrelated : related pairing result result' context context') :
    Twin comparison interner ledger own pairing context context' related
      ((Pure.pure result : Step α) context) ((Pure.pure result' : Step β) context') :=
  .value .refl habreast hrelated

theorem fail (fault : Fault) :
    Twin comparison interner ledger own pairing context context' related
      ((Step.fail fault : Step α) context) ((Step.fail fault : Step β) context') :=
  .error rfl rfl rfl rfl (.inr ⟨none, rfl, rfl⟩)

theorem bind {first : Step α} {first' : Step β} {next : α → Step γ} {next' : β → Step δ}
    {related' : Pairing → γ → δ → Context → Context → Prop}
    (hfirst : Twin comparison interner ledger own' pairing context context' related (first context)
      (first' context'))
    (hown : ∀ bind, own' bind → own bind)
    (hnext : ∀ {pairing' result result' later later'},
      Progress ledger own' pairing context context' pairing' later later' →
      Abreast comparison ledger pairing' later later' →
      related pairing' result result' later later' →
      Twin comparison interner ledger own pairing' later later' related' (next result later)
        (next' result' later')) :
    Twin comparison interner ledger own pairing context context' related' ((first >>= next) context)
      ((first' >>= next') context') := by
  rw [Step.bind_apply, Step.bind_apply]
  generalize first context = outcome at hfirst ⊢
  generalize first' context' = outcome' at hfirst ⊢
  cases hfirst with
  | value hprogress habreast hrelated =>
      exact .after (hprogress.mono hown) (hnext hprogress habreast hrelated)
  | error hstack hstack' hfault hspan htraces => exact .error hstack hstack' hfault hspan htraces
  | unfinishedLeft => exact .unfinishedLeft
  | unfinishedRight =>
      cases outcome <;> exact .unfinishedRight
  | overflowLeft hlax hover => exact .overflowLeft hlax hover
  | overflowRight hlax hover =>
      cases outcome <;> exact .overflowRight hlax hover

theorem ofExcept {result result' : Except Fault Value}
    {related : Pairing → Value → Value → Context → Context → Prop}
    (habreast : Abreast comparison ledger pairing context context')
    (h : ResultsAlike pairing result result')
    (hrelated : ∀ value value', Value.Alike pairing value value' →
      related pairing value value' context context') :
    Twin comparison interner ledger own pairing context context' related
      (Step.ofExcept result context) (Step.ofExcept result' context') := by
  cases h with
  | ok hvalue => exact .pure habreast (hrelated _ _ hvalue)
  | error fault => exact .fail fault

theorem record (own : NodeId → Prop) {bind : NodeId} {value value' : Value}
    (habreast : Abreast comparison ledger pairing context context') (hown : own bind)
    (hbind : ¬ Booked ledger bind) :
    Twin comparison interner ledger own pairing context context'
      (fun pairing' _ _ later later' => later.lookup? bind = some value ∧
        later'.lookup? bind = some value' ∧ ∀ i i', pairing i i' → pairing' i i')
      (Step.record bind value context) (Step.record bind value' context') :=
  .value ⟨fun _ _ hi => hi, fun _ _ hi => .inl hi, .record hown, .record hown⟩
    (habreast.record hbind)
    ⟨Context.lookup?_record, Context.lookup?_record, fun _ _ hi => hi⟩

theorem build {typeName : Name} {definition : NodeId} {properties properties' : Properties}
    (habreast : Abreast comparison ledger pairing context context')
    (hproperties : PropertiesAlike pairing properties properties') :
    Twin comparison interner ledger own pairing context context'
      (fun pairing' value value' _ _ => value.Alike pairing' value' ∧
        ∃ identity properties, value = .inst identity typeName definition properties)
      (Step.build typeName definition properties context)
      (Step.build typeName definition properties' context') := by
  obtain ⟨hprogress, habreast'⟩ := habreast.build own
  exact .value hprogress habreast'
    ⟨⟨_, _, rfl, .inr ⟨rfl, rfl⟩, hproperties.mono fun _ _ hi => .inl hi⟩, _, _, rfl⟩

theorem located {span : Span} {step : Step α} {step' : Step β}
    (hstacks : comparison.Stacks context.callStack context'.callStack)
    (h : Twin comparison interner ledger own pairing context context' related (step context)
      (step' context')) :
    Twin comparison interner ledger own pairing context context' related
      (Step.located interner span step context) (Step.located interner span step' context') := by
  simp only [Step.located]
  generalize step context = outcome at h ⊢
  generalize step' context' = outcome' at h ⊢
  cases h with
  | value hprogress habreast hrelated => exact .value hprogress habreast hrelated
  | error hstack hstack' hfault hspan htraces =>
      refine .error hstack hstack' ?_ ?_ ?_
      · rw [CallStack.fault_attach, CallStack.fault_attach]
        exact hfault
      · rw [CallStack.span_attach, CallStack.span_attach]
        exact congrArg (· <|> some span) hspan
      · rw [hstack, hstack']
        exact hstacks.attach htraces
  | unfinishedLeft => exact .unfinishedLeft
  | unfinishedRight =>
      cases outcome <;> exact .unfinishedRight
  | overflowLeft hlax hover =>
      exact .overflowLeft hlax (hover.of_fault_eq (CallStack.fault_attach ..))
  | overflowRight hlax hover =>
      exact .overflowRight hlax (hover.of_fault_eq (CallStack.fault_attach ..))

/-- In a frame of their own two runs bind nothing outside of it. -/
theorem inFrame (own : NodeId → Prop) {frame : CallFrame} {step : Step α} {step' : Step β}
    (habreast : Abreast comparison ledger pairing context context')
    (h : ∀ inner inner', context.enter frame = .ok inner → context'.enter frame = .ok inner' →
      Abreast comparison ledger pairing inner inner' →
      Twin comparison interner ledger own pairing inner inner'
        (fun pairing' result result' later later' =>
          related pairing' result result' later.leave later'.leave)
        (step inner) (step' inner')) :
    Twin comparison interner ledger own' pairing context context' related
      (Step.inFrame interner frame step context) (Step.inFrame interner frame step' context') := by
  have hleave {context inner later : Context} (henter : context.enter frame = .ok inner)
      (hlater : later.callStack = inner.callStack) : later.leave.callStack = context.callStack := by
    rw [← Context.leave_enter henter]
    simp only [Context.leave, hlater]
  simp only [Step.inFrame]
  cases henter : context.enter frame with
  | error failure =>
      obtain ⟨hfull, rfl⟩ := Context.enter_eq_error.mp henter
      rcases habreast.callStacks.depth_eq with hlax | ⟨hmax, hdepth⟩
      · exact .overflowLeft hlax ⟨_, rfl⟩
      · have hmax' : context'.maxDepth = context.maxDepth := hmax.symm
        have hdepth' : context'.depth = context.depth := hdepth.symm
        have henter' : context'.enter frame = .error { fault := .stackOverflow context.maxDepth } :=
          Context.enter_eq_error.mpr ⟨by rw [hmax', hdepth']; exact hfull, by rw [hmax']⟩
        rw [henter']
        exact .error rfl rfl rfl rfl (.inr ⟨none, rfl, rfl⟩)
  | ok inner =>
      cases henter' : context'.enter frame with
      | error failure' =>
          obtain ⟨hfull', rfl⟩ := Context.enter_eq_error.mp henter'
          rcases habreast.callStacks.depth_eq with hlax | ⟨hmax, hdepth⟩
          · exact .overflowRight hlax ⟨_, rfl⟩
          · have hmax' : context'.maxDepth = context.maxDepth := hmax.symm
            have hdepth' : context'.depth = context.depth := hdepth.symm
            rw [hmax', hdepth'] at hfull'
            exact absurd (Context.enter_eq_ok.mp henter).1 hfull'
      | ok inner' =>
          have hinner := habreast.enter henter henter'
          have htwin := h inner inner' henter henter' hinner
          simp only
          generalize step inner = outcome at htwin ⊢
          generalize step' inner' = outcome' at htwin ⊢
          cases htwin with
          | value hprogress habreast' hrelated =>
              refine .value ((hprogress.leave henter henter').mono fun _ h => h.elim)
                (habreast'.leave ?_) hrelated
              rw [hleave henter hprogress.left.callStack, hleave henter' hprogress.right.callStack]
              exact habreast.callStacks
          | error hstack hstack' hfault hspan htraces =>
              refine .error (hleave henter hstack) (hleave henter' hstack') ?_ ?_ ?_
              · rw [CallStack.fault_attach, CallStack.fault_attach, hfault]
              · rw [CallStack.span_attach, CallStack.span_attach, hspan]
              · rw [hstack, hstack']
                exact hinner.callStacks.attach htraces
          | unfinishedLeft => exact .unfinishedLeft
          | unfinishedRight =>
              cases outcome <;> exact .unfinishedRight
          | overflowLeft hlax hover =>
              exact .overflowLeft hlax (hover.of_fault_eq (CallStack.fault_attach ..))
          | overflowRight hlax hover =>
              exact .overflowRight hlax (hover.of_fault_eq (CallStack.fault_attach ..))

end Twin
end Bindery
