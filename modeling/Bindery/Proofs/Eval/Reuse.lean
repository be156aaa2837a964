import Bindery.Proofs.Eval.Accord
import Bindery.Proofs.Eval.Direct
import Bindery.Proofs.Eval.Numberless

/-!
Contexts that are used again give the answers of fresh ones. Whatever was evaluated in a context, in
whatever order and with whatever success, what it keeps was earned. So a node evaluated in it goes
in tandem with the same node evaluated in a fresh context, which keeps nothing: what the one finds,
the other one comes to, and where the fresh one stays within its limit so does the used one.
-/

namespace Bindery

namespace Source

variable {source : Source} {context later : Context} {history : List NodeId} {id : NodeId}

/-- No frame is being run, and all that is kept was earned. -/
structure Resting (source : Source) (context : Context) : Prop where
  frames : context.frames = []
  earned : ∀ bind value, context.demanded.lookup bind = some value →
    source.Earned context.Keeps bind value

namespace Resting

theorem fresh (limits : Limits) (owner : Nat) : source.Resting (.fresh limits owner) :=
  ⟨rfl, fun _ _ hkept => by cases hkept⟩

theorem settled (h : source.Resting context) (outer : List Definition) :
    source.Settled outer context := by
  refine ⟨fun bind _ => ?_, fun bind value _ => h.earned bind value⟩
  rw [Context.lookup?, h.frames, List.findSome?_nil, Option.none_or]

/-- What an evaluation did not bind itself is earned as it was, or as it was demanded. -/
theorem earned_of_advances (h : source.Resting context) {outer : List Definition}
    {own : NodeId → Prop} (hadvances : source.Advances outer own context later) {bind : NodeId}
    {value : Value} (hown : ¬ own bind) (hkept : later.demanded.lookup bind = some value) :
    source.Earned later.Keeps bind value :=
  (hadvances.settled_at (h.settled [.bind bind]) List.mem_cons_self hown).2 value hkept

/-- A bind that has come to a value is kept with it if no frame is being run. -/
theorem lookup_demanded (h : source.Resting context) {outer : List Definition} {value : Value}
    {bind : BindNode} (hlands : source.Lands outer id context (.value value later))
    (hkind : source.kind id = .bind bind) : later.demanded.lookup id = some value := by
  have hframes := (Context.frames_eq_nil_of_length hlands.1.grows.length_frames).mpr h.frames
  obtain ⟨between, rfl⟩ := hlands.2 bind hkind
  simp only [Context.record] at hframes ⊢
  split at hframes
  · simp [Context.keep]
  · cases hframes

/-- An evaluation leaves the context resting, whatever it comes to. -/
theorem evalSober (h : source.Resting context) (hsource : source.WellFormed) {steps : Nat}
    (hlater : (source.evalSober steps id context).context? = some later) :
    source.Resting later ∧ later.callStack = context.callStack := by
  have hlands := source.steady_evalSober hsource steps (source.visible id) [] id context
    (List.append_nil _).symm (h.settled _).poised
  have hgrows := (hlands.proceeds later hlater).grows
  have hframes := (Context.frames_eq_nil_of_length hgrows.length_frames).mpr h.frames
  refine ⟨⟨hframes, fun bind value hkept => ?_⟩, hgrows.callStack⟩
  cases houtcome : source.evalSober steps id context with
  | value found last =>
      rw [houtcome] at hlater hlands
      cases hlater
      by_cases hown : source.Binds id bind
      · obtain ⟨rfl, declared, hkind⟩ := hown
        cases (h.lookup_demanded hlands hkind).symm.trans hkept
        exact earned_of_evalSober (h.settled _) houtcome
      · exact h.earned_of_advances hlands.1 hown hkept
  | error failure last =>
      rw [houtcome] at hlater hlands
      cases hlater
      exact h.earned_of_advances hlands (fun hfalse => hfalse) hkept
  | unfinished =>
      rw [houtcome] at hlater
      cases hlater

end Resting

/-- What holds of a context between the evaluations of a history. -/
structure Reusable (source : Source) (limits : Limits) (context : Context) : Prop where
  resting : source.Resting context
  covered : ∃ registry : Registry, registry.Covers context
  callStack : context.callStack = { maxDepth := limits.maxDepth }

namespace Reusable

variable {limits : Limits}

theorem fresh (limits : Limits) (owner : Nat) :
    source.Reusable limits (.fresh limits owner) :=
  ⟨.fresh limits owner, ⟨_, Registry.covers_fresh limits owner⟩, rfl⟩

/-- A further evaluation, if no NaN comes up, leaves the context in such a state again. -/
theorem evaluate (h : source.Reusable limits context) (hsource : source.WellFormed)
    (hexact : source.Exact (source.stepBound context) id context) :
    source.Reusable limits (source.evaluate id context).2 := by
  obtain ⟨registry, hcovers⟩ := h.covered
  have hends := source.eval_ne_unfinished hsource (source.nesting_lt_stepBound id context)
  cases hlater : (source.eval (source.stepBound context) id context).context? with
  | none =>
      cases houtcome : source.eval (source.stepBound context) id context with
      | value | error =>
          rw [houtcome] at hlater
          cases hlater
      | unfinished => exact absurd houtcome hends
  | some later =>
      rw [evaluate_snd hlater]
      rw [← source.evalSober_eq hsource hexact hcovers] at hlater
      obtain ⟨hresting, hstack⟩ := h.resting.evalSober hsource hlater
      obtain ⟨registry', -, hcovers'⟩ :=
        (source.governs_evalSober hsource _ id registry context hcovers).of_context? hlater
      exact ⟨hresting, ⟨registry', hcovers'⟩, hstack.trans h.callStack⟩

theorem used (hsource : source.WellFormed) {owner : Nat}
    (hfree : source.FreeOfNaN (.fresh limits owner) history) :
    source.Reusable limits (source.used history (.fresh limits owner)) := by
  induction history using List.reverseRecOn with
  | nil => exact .fresh limits owner
  | append_singleton history id ih =>
      rw [used_append_singleton]
      exact (ih hfree.of_append).evaluate hsource hfree.exact

end Reusable

/-- However a context was used, a node evaluated in it comes to what it comes to in a fresh context
with the same limit, if that limit is not exceeded there: to the same value, the identities of
instances apart, or to the same error at the same place with the same backtrace. It is only asked
that no number that comes up in any of these evaluations is a NaN. -/
theorem evaluate_used {name text : String} {interner : Interner} {source : Source}
    (h : (parse name text interner).1 = .ok source) (limits : Limits) (owner owner' : Nat)
    (history : List NodeId) (id : NodeId)
    (hwithin : ¬ Overflowed (source.evaluate id (.fresh limits owner)).1)
    (hfresh : source.FreeOfNaN (.fresh limits owner) [id])
    (hused : source.FreeOfNaN (.fresh limits owner') (history ++ [id])) :
    (source.evaluate id (.fresh limits owner)).1.Alike Pairing.any
      (source.evaluate id (source.used history (.fresh limits owner'))).1 := by
  have hsource := wellFormed_of_parse h
  have hreusable : source.Reusable limits (source.used history (.fresh limits owner')) :=
    .used hsource hused.of_append
  generalize hcontext : source.used history (.fresh limits owner') = context at hreusable ⊢
  have hexact : source.Exact (source.stepBound context) id context := hcontext ▸ hused.exact
  have hfresh' : source.FreeOfNaN (.fresh limits owner) ([] ++ [id]) := hfresh
  have hexact' : source.Exact (source.stepBound (.fresh limits owner)) id (.fresh limits owner) :=
    hfresh'.exact
  obtain ⟨registry, hcovers⟩ := hreusable.covered
  have hparallel : source.Parallel True (source.visible id) [] (.fresh limits owner) context :=
    ⟨((Resting.fresh limits owner).settled _).poised, (hreusable.resting.settled _).poised,
      fun _ _ _ hbind => absurd hbind List.not_mem_nil, fun _ => hreusable.callStack,
      fun _ _ _ hkeeps => by cases hkeeps⟩
  have htandem := source.inTandem hsource True (source.visible id)
    (source.stepBound (.fresh limits owner)) (source.stepBound context) id [] (.fresh limits owner)
    context (List.append_nil _).symm hparallel
  rw [evalSober_eq hsource hexact' (Registry.covers_fresh limits owner),
    evalSober_eq hsource hexact hcovers] at htandem
  have hends := source.eval_ne_unfinished hsource (source.nesting_lt_stepBound id context)
  have hends' := source.eval_ne_unfinished hsource
    (source.nesting_lt_stepBound id (.fresh limits owner))
  simp only [evaluate] at hwithin ⊢
  generalize source.eval (source.stepBound context) id context = outcome at htandem hends
  generalize source.eval (source.stepBound (.fresh limits owner)) id (.fresh limits owner) =
    outcome' at htandem hends' hwithin
  cases htandem with
  | value hpost => exact hpost.1
  | error herror => exact congrArg Value.error (herror trivial).1
  | overflowLeft hover => exact absurd ⟨_, rfl, hover⟩ hwithin
  | overflowRight hlax _ => exact absurd trivial hlax
  | unfinishedLeft => exact absurd rfl hends'
  | unfinishedRight => exact absurd rfl hends

/-- A default, an input without a default and a bind of the body are evaluated on their own, the
second one in vain. A construction with other arguments knows nothing of it. -/
theorem evaluate_used_of_default :
    ∃ source, (parse "<code>" "•P(a: \"x\" c) (b: a)\nP(\"y\" true).b" .empty).1 = .ok source ∧
      (source.evaluate ⟨4⟩ (source.used [⟨1⟩, ⟨2⟩] (.fresh {} 1))).1 = .text "x" ∧
      (source.evaluate source.root (source.used [⟨1⟩, ⟨2⟩, ⟨4⟩] (.fresh {} 1))).1 = .text "y" := by
  have hfacts : (parse "<code>" "•P(a: \"x\" c) (b: a)\nP(\"y\" true).b" .empty).1.toOption.bind
      (fun source => some
        ((source.evaluate ⟨4⟩ (source.used [⟨1⟩, ⟨2⟩] (.fresh {} 1))).1.asText?,
          (source.evaluate source.root (.fresh {} 0)).1.asText?,
          source.arena.nodes.all (!·.kind.isNumber))) = some (some "x", some "y", true) := by
    decide +kernel
  obtain ⟨source, h, hread⟩ := exists_of_toOption_bind hfacts
  obtain ⟨hbind, hread⟩ := Prod.mk.inj (Option.some.inj hread)
  obtain ⟨hroot, hall⟩ := Prod.mk.inj hread
  have hnumber := source.ne_number_of_all hall
  have hfree (owner : Nat) (history : List NodeId) :=
    freeOfNaN_of_numberless (wellFormed_of_parse h) hnumber {} owner history
  have hanswer := Value.eq_text_of_asText? hroot
  have hwithin : ¬ Overflowed (source.evaluate source.root (.fresh {} 0)).1 := by
    rintro ⟨error, herror, -⟩
    rw [hanswer] at herror
    cases herror
  have halike := evaluate_used h {} 0 1 [⟨1⟩, ⟨2⟩, ⟨4⟩] source.root hwithin (hfree 0 _) (hfree 1 _)
  rw [hanswer] at halike
  exact ⟨source, h, Value.eq_text_of_asText? hbind, halike⟩

end Source
end Bindery
