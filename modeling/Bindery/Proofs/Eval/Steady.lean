import Bindery.Proofs.Eval.Earned
import Bindery.Proofs.Eval.Opaque

/-!
Evaluation keeps what was earned. Wherever a node is poised, its evaluation does no more than to
keep further outer binds, each with a value that was earned, and to bind the node itself, whether it
comes to a value or fails.
-/

namespace Bindery.Source

variable {source : Source} {outer inner : List Definition} {own own' : NodeId → Prop}
  {context later : Context}

/-- A node that is evaluated moves on, and a bind that has come to a value was just bound. -/
def Lands (source : Source) (outer : List Definition) (node : NodeId) (context : Context) :
    Outcome Value → Prop
  | .value value later => source.Advances outer (source.Binds node) context later ∧
      ∀ bind, source.kind node = .bind bind → ∃ between, later = Context.record between node value
  | .error _ later => source.Advances outer (fun _ => False) context later
  | .unfinished => True

/-- Whatever a step comes to, it has moved on. -/
def Proceeds {α : Type} (source : Source) (outer : List Definition) (own : NodeId → Prop)
    (context : Context) (outcome : Outcome α) : Prop :=
  ∀ later, outcome.context? = some later → source.Advances outer own context later

namespace Proceeds

variable {α β : Type}

theorem of_eq {outcome : Outcome α} (hsettled : source.Settled outer context)
    (h : ∀ later, outcome.context? = some later → later = context) :
    source.Proceeds outer own context outcome := by
  intro later hlater
  rw [h later hlater]
  exact .refl hsettled

theorem mono {outcome : Outcome α} (h : source.Proceeds outer own context outcome)
    (hown : ∀ bind, own bind → own' bind) : source.Proceeds outer own' context outcome :=
  fun later hlater => (h later hlater).mono hown

theorem bind {first : Step α} {next : α → Step β}
    (hfirst : source.Proceeds outer own context (first context))
    (hnext : ∀ result between, first context = .value result between →
      source.Advances outer own context between →
      source.Proceeds outer own between (next result between)) :
    source.Proceeds outer own context ((first >>= next) context) := by
  intro later hlater
  rw [Step.bind_apply] at hlater
  cases h : first context with
  | value result between =>
      rw [h] at hlater
      have hbetween := hfirst between (by rw [h]; rfl)
      exact hbetween.trans (hnext result between h hbetween later hlater)
  | error failure between =>
      rw [h] at hlater
      cases hlater
      exact hfirst later (by rw [h]; rfl)
  | unfinished =>
      rw [h] at hlater
      cases hlater

theorem inFrame {interner : Interner} {frame : CallFrame} {step : Step α}
    (hsettled : source.Settled outer context)
    (h : ∀ inner, context.enter frame = .ok inner → source.Proceeds outer own inner (step inner)) :
    source.Proceeds outer (fun _ => False) context
      (Step.inFrame interner frame step context) := by
  intro later hlater
  simp only [Step.inFrame] at hlater
  cases henter : context.enter frame with
  | error failure =>
      rw [henter] at hlater
      cases hlater
      exact .refl hsettled
  | ok inner =>
      rw [henter] at hlater
      have hinner := h inner henter
      cases hstep : step inner with
      | value result between | error failure between =>
          simp only [hstep] at hlater
          cases hlater
          exact .leave hsettled henter (hinner between (by rw [hstep]; rfl))
      | unfinished =>
          simp only [hstep] at hlater
          cases hlater

end Proceeds

theorem Lands.proceeds {node : NodeId} {outcome : Outcome Value}
    (h : source.Lands outer node context outcome) :
    source.Proceeds outer (source.Binds node) context outcome := by
  intro later hlater
  cases outcome with
  | value => cases hlater; exact h.1
  | error => cases hlater; exact Advances.mono h fun _ hbind => hbind.elim
  | unfinished => cases hlater

theorem Lands.of_proceeds {node : NodeId} {outcome : Outcome Value}
    (hnode : ∀ bind, source.kind node ≠ .bind bind)
    (h : source.Proceeds outer (fun _ => False) context outcome) :
    source.Lands outer node context outcome := by
  cases outcome with
  | value value later =>
      exact ⟨(h later rfl).mono fun _ hbind => hbind.elim,
        fun bind hkind => absurd hkind (hnode bind)⟩
  | error failure later => exact h later rfl
  | unfinished => trivial

theorem Lands.findSome?_eq {node : NodeId} {value : Value} {bind : BindNode}
    (h : source.Lands outer node context (.value value later)) (hframes : context.frames ≠ [])
    (hkind : source.kind node = .bind bind) :
    later.frames.findSome? (·.lookup node) = some value := by
  obtain ⟨between, rfl⟩ := h.2 bind hkind
  refine Context.findSome?_record fun hnil => h.1.frames_ne_nil hframes ?_
  simp only [Context.record, hnil, Context.keep]

/-- After a child the context is still poised. -/
theorem Poised.next_child (hsource : source.WellFormed) {id : NodeId}
    (hvisible : source.visible id = outer ++ inner)
    (hpoised : source.Poised outer inner context)
    (hadvances : source.Advances outer (fun _ => False) context later) :
    source.Poised outer inner later :=
  hpoised.next hadvances fun _ hbind => ⟨not_mem_outer hsource hvisible hbind, fun hown => hown⟩

/-- After a statement it is poised for the next one. -/
theorem Poised.next_statement (hsource : source.WellFormed) {node : NodeId}
    (hvisible : source.visible node = outer ++ inner)
    (hpoised : source.Poised outer inner context) (hframes : context.frames ≠ []) {value : Value}
    (hlands : source.Lands outer node context (.value value later)) :
    source.Poised outer (inner ++ (source.definition? node).toList) later ∧ later.frames ≠ [] := by
  refine ⟨Poised.define (hpoised.next hlands.1 fun bind hbind => ?_) fun bind hkind => ?_,
    hlands.1.frames_ne_nil hframes⟩
  · refine ⟨not_mem_outer hsource hvisible hbind, hsource.not_binds_of_visible ?_⟩
    rw [hvisible]
    exact List.mem_append_right _ hbind
  · rw [hlands.findSome?_eq hframes hkind]
    rfl

/-- The evaluator moves on at every node, wherever it is poised. -/
def Steady (source : Source) (recur : NodeId → Step Value) : Prop :=
  ∀ outer inner node context, source.visible node = outer ++ inner →
    source.Poised outer inner context → source.Lands outer node context (recur node context)

theorem checkType_context {type : Option DeclaredType} {value : Value}
    (h : (source.checkType type value context).context? = some later) : context = later := by
  cases type with
  | none => cases h; rfl
  | some declared =>
      simp only [checkType] at h
      split at h <;> cases h <;> rfl

namespace Steady

variable {recur : NodeId → Step Value} (h : source.Steady recur) (hsource : source.WellFormed)
  {id node : NodeId}
include h hsource

theorem child (hvisible : source.visible id = outer ++ inner)
    (hpoised : source.Poised outer inner context)
    (hplaced : (Place.expression, node) ∈ source.arena.placements (source.kind id)) :
    source.Proceeds outer (fun _ => False) context (recur node context) := by
  have hbind := NodeKind.ne_bind_of_expression (hsource.admits_of_placed hplaced)
  exact (h outer inner node context ((hsource.visible_of_placed hplaced).trans hvisible)
    hpoised).proceeds.mono fun key hkey => not_binds_of_ne_bind hbind key hkey

theorem evalSequence {ids : List NodeId} {last : Value}
    (halong : source.Along .statement (outer ++ inner) ids)
    (hpoised : source.Poised outer inner context) (hframes : context.frames ≠ []) :
    source.Proceeds outer (fun bind => .bind bind ∉ outer) context
      (Source.evalSequence recur last ids context) := by
  induction ids generalizing inner last context with
  | nil => exact .of_eq hpoised.toSettled fun later hlater => by cases hlater; rfl
  | cons id rest ih =>
      have hvisible := halong.head
      have hlands := h outer inner id context hvisible hpoised
      refine .bind (hlands.proceeds.mono fun key hkey hmem => ?_) fun value between hvalue _ => ?_
      · refine hsource.not_binds_of_visible ?_ hkey
        rw [hvisible]
        exact List.mem_append_left _ hmem
      · rw [hvalue] at hlands
        obtain ⟨hpoised', hframes'⟩ := hpoised.next_statement hsource hvisible hframes hlands
        have htail := halong.tail
        rw [List.append_assoc] at htail
        exact ih htail hpoised' hframes'

theorem evalEach {ids : List NodeId} (hvisible : source.visible id = outer ++ inner)
    (hpoised : source.Poised outer inner context)
    (hplaced : ∀ node ∈ ids, (Place.expression, node) ∈ source.arena.placements (source.kind id)) :
    source.Proceeds outer (fun _ => False) context (Source.evalEach recur ids context) := by
  induction ids generalizing context with
  | nil => exact .of_eq hpoised.toSettled fun later hlater => by cases hlater; rfl
  | cons node rest ih =>
      refine .bind (h.child hsource hvisible hpoised (hplaced node List.mem_cons_self))
        fun value between _ hadvances => ?_
      have hpoised' := hpoised.next_child hsource hvisible hadvances
      refine .bind (ih hpoised' fun node hnode => hplaced node (List.mem_cons_of_mem _ hnode))
        fun values later _ hadvances' => ?_
      exact .of_eq hadvances'.settled fun later hlater => by cases hlater; rfl

theorem evalBind {bind : BindNode} (hkind : source.kind id = .bind bind)
    (hvisible : source.visible id = outer ++ inner)
    (hpoised : source.Poised outer inner context) :
    source.Lands outer id context (source.evalBind recur id bind context) := by
  simp only [Source.evalBind]
  cases hvalue : bind.value with
  | none => exact .refl hpoised.toSettled
  | some node =>
      have hplaced : (Place.expression, node) ∈ source.arena.placements (source.kind id) := by
        simp [hkind, Arena.placements, hvalue]
      have hchild := h.child hsource hvisible hpoised hplaced
      have hid := not_mem_outer_of_visible hsource hvisible
      simp only [Step.bind_apply]
      cases hrun : recur node context with
      | value value between =>
          rw [hrun] at hchild
          have hadvances := hchild between rfl
          simp only
          cases hcheck : source.checkType bind.type value between with
          | value _ checked =>
              obtain rfl := checkType_context (by rw [hcheck]; rfl)
              exact ⟨hadvances.record hid ⟨rfl, bind, hkind⟩ value, fun _ _ => ⟨_, rfl⟩⟩
          | error failure checked =>
              obtain rfl := checkType_context (by rw [hcheck]; rfl)
              exact hadvances
          | unfinished => trivial
      | error failure between =>
          rw [hrun] at hchild
          exact hchild between rfl
      | unfinished => trivial

end Steady

theorem evalSober_keepsCallStack (steps : Nat) (id : NodeId) (context : Context) :
    Step.KeepsCallStack Value context (source.evalSober steps id) (source.evalSober steps id) := by
  intro later hlater
  rcases source.extends_evalSober steps id context with hunfinished | heq
  · rw [hunfinished] at hlater
    cases hlater
  · exact source.eval_keepsCallStack steps id context later (heq ▸ hlater)

/-- A construction changes nothing but the count of instances. -/
theorem exists_built_of_evalSober (hsource : source.WellFormed) {steps : Nat} {structureId : NodeId}
    {values : List Value} {callSpan : Span}
    (h : (source.construct (source.evalSober steps) structureId values callSpan context).context? =
      some later) : ∃ built, context.built ≤ built ∧ later = { context with built } := by
  have hextends : Step.Extends Value context
      (source.construct (source.evalSober steps) structureId values callSpan)
      (source.construct (source.eval steps) structureId values callSpan) :=
    construct_congr Step.congruence_extends.toCongruence (source.evalSober_keepsCallStack steps)
      structureId values callSpan
        fun _ _ node later _ _ => source.extends_evalSober steps node later
  have hgrows : ∀ later,
      (source.construct (source.eval steps) structureId values callSpan context).context? =
        some later → context.Grows (fun _ => True) (fun _ => True) later :=
    @construct_congr source _ Step.congruence_grows.toCongruence (source.eval steps)
      (source.eval steps) (source.eval_keepsCallStack steps) context structureId values callSpan
      fun _ _ node later _ _ => source.eval_grows steps node later
  rcases hextends with hunfinished | heq
  · rw [hunfinished] at h
    cases h
  · rw [← heq] at h
    have hle := (hgrows later h).built
    obtain ⟨built, rfl⟩ := exists_built_of_construct hsource h
    exact ⟨built, hle, rfl⟩

theorem proceeds_construct (hsource : source.WellFormed) (hsettled : source.Settled outer context)
    {steps : Nat} {structureId : NodeId} {values : List Value} {callSpan : Span} :
    source.Proceeds outer (fun _ => False) context
      (source.construct (source.evalSober steps) structureId values callSpan context) := by
  intro later hlater
  obtain ⟨built, hle, rfl⟩ := exists_built_of_evalSober hsource hlater
  exact ⟨⟨rfl, rfl, hle, rfl, rfl, fun _ _ _ => rfl, fun _ _ _ => rfl⟩, fun _ hkeeps => hkeeps,
    hsettled.lookup?_eq, hsettled.earned⟩

/-- What is held or kept of a visible bind. An outer bind has to be demanded if nothing is kept. -/
theorem Poised.lookup?_cases (h : source.Poised outer inner context) {bind : NodeId}
    (hbind : .bind bind ∈ outer ++ inner) :
    (∃ value, context.lookup? bind = some value) ∨
      context.lookup? bind = none ∧ context.Lacks outer bind := by
  cases hlookup : context.lookup? bind with
  | some value => exact .inl ⟨value, rfl⟩
  | none =>
      rcases List.mem_append.mp hbind with houter | hinner
      · exact .inr ⟨rfl, houter, (h.lookup?_eq bind houter).symm.trans hlookup⟩
      · obtain ⟨value, hvalue⟩ := Option.isSome_iff_exists.mp (h.held bind hinner)
        rw [Context.lookup?, hvalue] at hlookup
        cases hlookup

/-- What is demanded from a settled context is earned. -/
theorem earned_of_evalSober {id : NodeId} (hsettled : source.Settled (source.visible id) context)
    {steps : Nat} {value : Value} (heval : source.evalSober steps id context = .value value later) :
    source.Earned later.Keeps id value :=
  .intro hsettled.lookup?_eq hsettled.earned heval fun _ _ hkeeps => hkeeps

namespace Steady

variable {steps : Nat} (h : source.Steady (source.evalSober steps)) (hsource : source.WellFormed)
  {id : NodeId}
include h hsource

theorem evalReference {name : Name} (hvisible : source.visible id = outer ++ inner)
    (hpoised : source.Poised outer inner context) :
    source.Proceeds outer (fun _ => False) context
      (source.evalReference (source.evalSober steps) id name context) := by
  simp only [Source.evalReference]
  cases hdefinition : source.definitionOf? id name with
  | none => exact .of_eq hpoised.toSettled fun later hlater => by cases hlater; rfl
  | some definition =>
      cases definition with
      | structureDef structureId =>
          exact .of_eq hpoised.toSettled fun later hlater => by cases hlater; rfl
      | bind bind =>
          have hbind := (mem_visible_of_definitionOf? hdefinition).1
          rw [hvisible] at hbind
          simp only [Step.bind_apply, Step.lookup?]
          rcases hpoised.lookup?_cases hbind with ⟨value, hlookup⟩ | ⟨hlookup, hlacks⟩
          · rw [hlookup]
            exact .of_eq hpoised.toSettled fun later hlater => by cases hlater; rfl
          · rw [hlookup]
            have hsub := visible_subset hsource hvisible hlacks.1
            have hsettled := hpoised.toSettled.narrow hsub
            have hlands := h (source.visible bind) [] bind context (List.append_nil _).symm
              hsettled.poised
            intro later hlater
            simp only [demand, Step.bind_apply] at hlater
            cases hrun : source.evalSober steps bind context with
            | value value between =>
                rw [hrun] at hlands hlater
                cases hlater
                obtain ⟨definition, hkind⟩ : ∃ definition, source.kind bind = .bind definition :=
                  hsource.kind_of_visible (mem_visible_of_definitionOf? hdefinition).1
                obtain ⟨_, hbetween⟩ := hlands.2 definition hkind
                refine hlands.1.keep hpoised.toSettled hsub hlacks ?_
                  (earned_of_evalSober hsettled hrun)
                rw [hbetween, Context.lookup?_record]
            | error failure between =>
                rw [hrun] at hlands hlater
                cases hlater
                exact Advances.widen hlands hpoised.toSettled hsub fun _ _ hfalse => hfalse
            | unfinished =>
                rw [hrun] at hlater
                cases hlater

theorem evalEvaluate {callee : NodeId} {arguments : NodeRange}
    (hkind : source.kind id = .evaluate callee arguments)
    (hvisible : source.visible id = outer ++ inner)
    (hpoised : source.Poised outer inner context) :
    source.Proceeds outer (fun _ => False) context
      (source.evalEvaluate (source.evalSober steps) id callee arguments context) := by
  have hcallee : (Place.expression, callee) ∈ source.arena.placements (source.kind id) := by
    simp [hkind, Arena.placements]
  have harguments (node : NodeId) (hnode : node ∈ source.list arguments) :
      (Place.expression, node) ∈ source.arena.placements (source.kind id) :=
    WellFormed.placed_argument hkind hnode
  refine .bind (h.child hsource hvisible hpoised hcallee) fun called between _ hadvances => ?_
  have hpoised' := hpoised.next_child hsource hvisible hadvances
  refine .bind (h.evalEach hsource hvisible hpoised' harguments) fun values later _ hadvances' => ?_
  cases called with
  | structureRef structureId name => exact proceeds_construct hsource hadvances'.settled
  | none | text | number | boolean | inst | error =>
      exact .of_eq hadvances'.settled fun later hlater => by cases hlater; rfl

theorem evalConditional {condition yes no : NodeId}
    (hkind : source.kind id = .conditional condition yes no)
    (hvisible : source.visible id = outer ++ inner)
    (hpoised : source.Poised outer inner context) :
    source.Proceeds outer (fun _ => False) context
      (source.evalConditional (source.evalSober steps) condition yes no context) := by
  have hplaced (node : NodeId) (hnode : node = condition ∨ node = yes ∨ node = no) :
      (Place.expression, node) ∈ source.arena.placements (source.kind id) := by
    simpa [hkind, Arena.placements] using hnode
  refine .bind (h.child hsource hvisible hpoised (hplaced condition (.inl rfl)))
    fun value between _ hadvances => ?_
  have hpoised' := hpoised.next_child hsource hvisible hadvances
  cases value with
  | boolean choice =>
      cases choice with
      | true => exact h.child hsource hvisible hpoised' (hplaced yes (.inr (.inl rfl)))
      | false => exact h.child hsource hvisible hpoised' (hplaced no (.inr (.inr rfl)))
  | none | text | number | structureRef | inst | error =>
      exact .of_eq hadvances.settled fun later hlater => by cases hlater; rfl

end Steady

theorem proceeds_ofExcept (hsettled : source.Settled outer context) (result : Except Fault Value) :
    source.Proceeds outer own context (Step.ofExcept result context) := by
  refine .of_eq hsettled fun later hlater => ?_
  cases result <;> cases hlater <;> rfl

theorem Steady.soberKind {steps : Nat} (h : source.Steady (source.evalSober steps))
    (hsource : source.WellFormed) {id : NodeId} (hvisible : source.visible id = outer ++ inner)
    (hpoised : source.Poised outer inner context) :
    source.Lands outer id context (source.soberKind (source.evalSober steps) id context) := by
  by_cases hbind : ∃ bind, source.kind id = .bind bind
  · obtain ⟨bind, hkind⟩ := hbind
    simp only [Source.soberKind, evalKind, hkind]
    exact h.evalBind hsource hkind hvisible hpoised
  · refine .of_proceeds (fun bind hkind => hbind ⟨bind, hkind⟩) ?_
    have hdone {outcome : Outcome Value}
        (heq : ∀ later, outcome.context? = some later → later = context) :
        source.Proceeds outer (fun _ => False) context outcome := .of_eq hpoised.toSettled heq
    simp only [Source.soberKind, evalKind]
    cases hkind : source.kind id with
    | bind bind => exact absurd ⟨bind, hkind⟩ hbind
    | block statements =>
        have halong := hsource.along_block hkind
        rw [hvisible] at halong
        have hstatements (entered : Context)
            (henter : context.enter ⟨.block, source.span id⟩ = .ok entered) :
            source.Proceeds outer (fun bind => .bind bind ∉ outer) entered
              (Source.evalSequence (source.evalSober steps) .none (source.list statements)
                entered) := by
          exact h.evalSequence hsource halong (hpoised.enter henter) (Context.frames_ne_nil henter)
        exact .inFrame hpoised.toSettled hstatements
    | structureDef definition => exact hdone fun later hlater => by cases hlater; rfl
    | memberName name | reference name => exact h.evalReference hsource hvisible hpoised
    | evaluate callee arguments => exact h.evalEvaluate hsource hkind hvisible hpoised
    | number bits | text content | boolean value =>
        exact hdone fun later hlater => by cases hlater; rfl
    | property subject member =>
        refine .bind (h.child hsource hvisible hpoised (by simp [hkind, Arena.placements]))
          fun value between _ hadvances => ?_
        exact proceeds_ofExcept hadvances.settled _
    | unary op operand =>
        refine .bind (h.child hsource hvisible hpoised (by simp [hkind, Arena.placements]))
          fun value between _ hadvances => ?_
        exact proceeds_ofExcept hadvances.settled _
    | binary op left right =>
        refine .bind (h.child hsource hvisible hpoised (by simp [hkind, Arena.placements]))
          fun value between _ hadvances => ?_
        have hpoised' := hpoised.next_child hsource hvisible hadvances
        refine .bind (h.child hsource hvisible hpoised' (by simp [hkind, Arena.placements]))
          fun value' later _ hadvances' => ?_
        refine .bind ?_ fun _ later _ hadvances'' => proceeds_ofExcept hadvances''.settled _
        refine .of_eq hadvances'.settled fun later hlater => ?_
        simp only [compared] at hlater
        split at hlater <;> cases hlater
        rfl
    | conditional condition yes no => exact h.evalConditional hsource hkind hvisible hpoised

theorem Lands.located {node : NodeId} {interner : Interner} {span : Span} {step : Step Value}
    (h : source.Lands outer node context (step context)) :
    source.Lands outer node context (Step.located interner span step context) := by
  simp only [Step.located]
  cases hstep : step context <;> rw [hstep] at h <;> exact h

theorem Lands.sober {node : NodeId} {step : Step Value}
    (h : source.Lands outer node context (step context)) :
    source.Lands outer node context (Source.sober step context) := by
  rcases sober_eq step context with hsober | hsober <;> rw [hsober]
  · trivial
  · exact h

/-- Sober evaluation moves on at every node, wherever it is poised. -/
theorem steady_evalSober (hsource : source.WellFormed) (steps : Nat) :
    source.Steady (source.evalSober steps) := by
  induction steps with
  | zero => exact fun _ _ _ _ _ _ => trivial
  | succ steps ih =>
      intro outer inner node context hvisible hpoised
      exact (ih.soberKind hsource hvisible hpoised).located.sober

end Bindery.Source
