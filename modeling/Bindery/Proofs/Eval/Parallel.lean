import Bindery.Proofs.Eval.Tandem

/-!
Evaluation from contexts that keep different values. The evaluator goes in tandem at every node: by
induction on the number of nested evaluations inside of constructions, where nothing is demanded,
and elsewhere by induction on the node, for what is demanded comes before it.
-/

namespace Bindery.Source

variable {source : Source}

/-- Two contexts from which a node may be evaluated in tandem: the frames of both hold the inner
binds, with alike values, and both are settled in the outer ones. -/
structure Parallel (source : Source) (strict : Prop) (outer inner : List Definition)
    (context context' : Context) : Prop where
  left : source.Poised outer inner context
  right : source.Poised outer inner context'
  alike : ∀ bind value value', .bind bind ∈ inner → context.lookup? bind = some value →
    context'.lookup? bind = some value' → value.Alike Pairing.any value'
  callStack : strict → context'.callStack = context.callStack
  ahead : strict → ∀ bind, .bind bind ∈ outer → context.Keeps bind → context'.Keeps bind

/-- From parallel contexts the evaluations of a node are in tandem. -/
def InTandem (source : Source) (strict : Prop) (outer : List Definition) (steps steps' : Nat)
    (node : NodeId) : Prop :=
  ∀ inner context context', source.visible node = outer ++ inner →
    source.Parallel strict outer inner context context' →
    Tandem strict (AlikeInPace outer context context')
      (source.evalSober steps node context) (source.evalSober steps' node context')

variable {strict : Prop} {outer outer' inner : List Definition} {own : NodeId → Prop}
  {context context' later later' : Context} {steps steps' : Nat}

namespace Parallel

theorem of_settled (h : source.Settled outer context) (h' : source.Settled outer context') :
    source.Parallel False outer [] context context' :=
  ⟨h.poised, h'.poised, fun _ _ _ hbind => absurd hbind List.not_mem_nil, fun hfalse => hfalse.elim,
    fun hfalse => hfalse.elim⟩

/-- Where nothing is visible, any contexts will do. -/
theorem nil (hstacks : strict → context'.callStack = context.callStack) :
    source.Parallel strict [] [] context context' :=
  ⟨(Settled.nil context).poised, (Settled.nil context').poised,
    fun _ _ _ hbind => absurd hbind List.not_mem_nil, hstacks,
    fun _ _ hbind => absurd hbind List.not_mem_nil⟩

theorem narrow (h : source.Parallel strict outer inner context context') (hsub : outer' ⊆ outer) :
    source.Parallel strict outer' [] context context' :=
  ⟨(h.left.toSettled.narrow hsub).poised, (h.right.toSettled.narrow hsub).poised,
    fun _ _ _ hbind => absurd hbind List.not_mem_nil, h.callStack,
    fun hstrict bind hbind => h.ahead hstrict bind (hsub hbind)⟩

theorem enter (h : source.Parallel strict outer inner context context') {frame : CallFrame}
    (henter : context.enter frame = .ok later) (henter' : context'.enter frame = .ok later') :
    source.Parallel strict outer inner later later' := by
  refine ⟨h.left.enter henter, h.right.enter henter', ?_, fun hstrict => ?_, ?_⟩
  all_goals obtain ⟨-, rfl⟩ := Context.enter_eq_ok.mp henter
  all_goals obtain ⟨-, rfl⟩ := Context.enter_eq_ok.mp henter'
  · exact h.alike
  · simp only [h.callStack hstrict]
  · exact h.ahead

theorem next (h : source.Parallel strict outer inner context context')
    (hleft : source.Advances outer own context later)
    (hright : source.Advances outer own context' later')
    (hpace : context.Pace outer context' later later')
    (hinner : ∀ bind, .bind bind ∈ inner → .bind bind ∉ outer ∧ ¬ own bind) :
    source.Parallel strict outer inner later later' := by
  refine ⟨h.left.next hleft hinner, h.right.next hright hinner,
    fun bind value value' hbind hvalue hvalue' => ?_, fun hstrict => ?_,
    fun hstrict bind hbind hkeeps => ?_⟩
  · obtain ⟨hnot, hown⟩ := hinner bind hbind
    rw [hleft.grows.lookup?_eq hown fun hlacks => hnot hlacks.1] at hvalue
    rw [hright.grows.lookup?_eq hown fun hlacks => hnot hlacks.1] at hvalue'
    exact h.alike bind value value' hbind hvalue hvalue'
  · rw [hleft.grows.callStack, hright.grows.callStack, h.callStack hstrict]
  · rcases hpace.left bind hbind hkeeps with hbefore | hafter
    · exact hright.keeps bind (h.ahead hstrict bind hbind hbefore)
    · exact hafter

/-- A statement or an input that has come to alike values is one of the inner binds. -/
theorem define (h : source.Parallel strict outer inner context context') {id : NodeId}
    {value value' : Value} (halike : value.Alike Pairing.any value')
    (hheld : ∀ bind, source.kind id = .bind bind →
      context.frames.findSome? (·.lookup id) = some value)
    (hheld' : ∀ bind, source.kind id = .bind bind →
      context'.frames.findSome? (·.lookup id) = some value') :
    source.Parallel strict outer (inner ++ (source.definition? id).toList) context context' := by
  refine ⟨h.left.define fun bind hkind => by rw [hheld bind hkind]; rfl,
    h.right.define fun bind hkind => by rw [hheld' bind hkind]; rfl,
    fun bind found found' hbind hfound hfound' => ?_, h.callStack, h.ahead⟩
  rcases List.mem_append.mp hbind with hbind | hbind
  · exact h.alike bind found found' hbind hfound hfound'
  · have hdefinition := Option.mem_toList.mp hbind
    simp only [definition?] at hdefinition
    split at hdefinition <;> cases hdefinition
    simp only [Context.lookup?, hheld _ ‹_›, Option.some_or, Option.some.injEq] at hfound
    simp only [Context.lookup?, hheld' _ ‹_›, Option.some_or, Option.some.injEq] at hfound'
    rw [← hfound, ← hfound']
    exact halike

end Parallel

/-! ### Binds on demand -/

/-- Of the outer binds a demand has kept nothing but the bind demanded and what the evaluation of
that has kept. -/
theorem keeps_of_demand {bind : NodeId} {value : Value} {known : NodeId → Prop}
    (h : source.Advances outer' (source.Binds bind) context later) (hbind : known bind)
    (hkeeps : ∀ other, .bind other ∈ outer' → later.Keeps other →
      context.Keeps other ∨ known other) (other : NodeId)
    (hother : (later.keep bind value).Keeps other) : context.Keeps other ∨ known other := by
  by_cases heq : other = bind
  · exact .inr (heq ▸ hbind)
  · have hlater : later.Keeps other := by
      simpa only [Context.Keeps, Context.keep, List.lookup_cons, beq_false_of_ne heq] using hother
    by_cases hmem : .bind other ∈ outer'
    · exact hkeeps other hmem hlater
    · refine .inl ?_
      rw [Context.Keeps, h.grows.demanded other (fun hlacks => hmem hlacks.1)
        fun hbinds => absurd hbinds.1 heq] at hlater
      exact hlater

theorem keeps_keep (context : Context) (bind : NodeId) (value : Value) :
    (context.keep bind value).Keeps bind := by
  simp [Context.Keeps, Context.keep]

section

variable {bind : NodeId}
  (hdemand : ∀ strict steps steps',
    source.InTandem strict (source.visible bind) steps steps' bind)
include hdemand

/-- Values of one bind that were earned are alike. -/
theorem Earned.alike {known known' : NodeId → Prop} {value value' : Value}
    (h : source.Earned known bind value) (h' : source.Earned known' bind value') :
    value.Alike Pairing.any value' := by
  cases h with
  | @intro _ _ _ steps start later hlookup hearned heval _ =>
      cases h' with
      | @intro _ _ _ steps' start' later' hlookup' hearned' heval' _ =>
          have htandem := hdemand False steps steps' [] start start' (List.append_nil _).symm
            (.of_settled ⟨hlookup, hearned⟩ ⟨hlookup', hearned'⟩)
          rw [heval, heval'] at htandem
          cases htandem with
          | value hpost => exact hpost.1

/-- The evaluation of a bind is in tandem with that by which a value of it was earned. -/
theorem Earned.tandem {known : NodeId → Prop} {value : Value}
    (h : source.Earned known bind value) (hsettled : source.Settled (source.visible bind) context)
    (steps : Nat) :
    ∃ earned, Tandem False
      (fun value' later value _ => value'.Alike Pairing.any value ∧
        ∀ other, .bind other ∈ source.visible bind → later.Keeps other →
          context.Keeps other ∨ known other)
      (source.evalSober steps bind context) (.value value earned) := by
  cases h with
  | @intro _ _ _ steps₀ start earned hlookup hearned heval hknown =>
      have htandem := hdemand False steps steps₀ [] context start (List.append_nil _).symm
        (.of_settled hsettled ⟨hlookup, hearned⟩)
      rw [heval] at htandem
      refine ⟨earned, htandem.weaken fun _ _ _ _ _ heq hpost =>
        ⟨hpost.1, fun other hother hkeeps => ?_⟩⟩
      cases heq
      exact (hpost.2.left other hother hkeeps).imp id (hknown other hother)

end

/-- A bind that the second run keeps and the first one has to demand. -/
theorem Earned.tandem_demand (hsource : source.WellFormed) {bind : NodeId} {value' : Value}
    (hdemand : ∀ strict steps steps',
      source.InTandem strict (source.visible bind) steps steps' bind)
    (h : source.Earned context'.Keeps bind value') (hkeeps : context'.Keeps bind)
    (hsettled : source.Settled (source.visible bind) context) :
    Tandem strict (AlikeInPace outer context context')
      (demand (source.evalSober steps) bind context) (.value value' context') := by
  obtain ⟨earned, htandem⟩ := h.tandem hdemand hsettled steps
  have hlands := source.steady_evalSober hsource steps (source.visible bind) [] bind context
    (List.append_nil _).symm hsettled.poised
  simp only [demand, Step.bind_apply]
  cases hrun : source.evalSober steps bind context with
  | value value later =>
      rw [hrun] at htandem hlands
      cases htandem with
      | value hpost =>
          exact .value ⟨hpost.1, fun other hother => (hlands.1.keeps other hother).keep bind value,
            fun _ hother => hother,
            fun other _ hother => keeps_of_demand hlands.1 hkeeps hpost.2 other hother,
            fun _ _ => .inl⟩
  | error failure later =>
      rw [hrun] at htandem
      cases htandem with
      | overflowLeft hover => exact .overflowLeft hover
  | unfinished => exact .unfinishedLeft

/-- A bind that the first run keeps and the second one has to demand. -/
theorem Earned.tandem_demand' (hsource : source.WellFormed) {bind : NodeId} {value : Value}
    (hdemand : ∀ strict steps steps',
      source.InTandem strict (source.visible bind) steps steps' bind)
    (hlax : ¬ strict) (h : source.Earned context.Keeps bind value) (hkeeps : context.Keeps bind)
    (hsettled : source.Settled (source.visible bind) context') :
    Tandem strict (AlikeInPace outer context context')
      (.value value context) (demand (source.evalSober steps') bind context') :=
  ((h.tandem_demand hsource hdemand hkeeps hsettled).symm hlax).weaken
    fun _ _ _ _ _ _ hpost => ⟨hpost.1.symm, hpost.2.symm⟩

/-- A bind that both runs have to demand. -/
theorem InTandem.demand (hsource : source.WellFormed) {bind : NodeId}
    (hnode : source.InTandem strict (source.visible bind) steps steps' bind)
    (h : source.Parallel strict (source.visible bind) [] context context') :
    Tandem strict (AlikeInPace outer context context')
      (Source.demand (source.evalSober steps) bind context)
      (Source.demand (source.evalSober steps') bind context') := by
  have hvisible := (List.append_nil (source.visible bind)).symm
  have hlands := source.steady_evalSober hsource steps _ [] bind context hvisible h.left
  have hlands' := source.steady_evalSober hsource steps' _ [] bind context' hvisible h.right
  refine Tandem.bind ((hnode [] context context' hvisible h).weaken
    fun value later value' later' heq heq' hpost => And.intro hpost (And.intro heq heq'))
    fun value later value' later' hpost => ?_
  obtain ⟨⟨halike, hpace⟩, heq, heq'⟩ := hpost
  rw [heq] at hlands
  rw [heq'] at hlands'
  refine .value ⟨halike, fun other hother => (hlands.1.keeps other hother).keep bind value,
    fun other hother => (hlands'.1.keeps other hother).keep bind value',
    fun other _ => keeps_of_demand hlands.1 (keeps_keep later' bind value')
      (fun other hmem hother => (hpace.left other hmem hother).imp_right (·.keep bind value'))
        other,
    fun other _ => keeps_of_demand hlands'.1 (keeps_keep later bind value)
      (fun other hmem hother => (hpace.right other hmem hother).imp_right (·.keep bind value))
        other⟩

/-- What a name comes to, whichever of the runs keeps it. -/
theorem tandem_evalReference (hsource : source.WellFormed) {id : NodeId} {name : Name}
    (hvisible : source.visible id = outer ++ inner)
    (hdemand : ∀ bind, .bind bind ∈ outer → ∀ strict steps steps',
      source.InTandem strict (source.visible bind) steps steps' bind)
    (h : source.Parallel strict outer inner context context') :
    Tandem strict (AlikeInPace outer context context')
      (source.evalReference (source.evalSober steps) id name context)
      (source.evalReference (source.evalSober steps') id name context') := by
  simp only [evalReference]
  cases hdefinition : source.definitionOf? id name with
  | none => exact .fail h.callStack _
  | some definition =>
      cases definition with
      | structureDef structureId => exact .value ⟨rfl, .refl⟩
      | bind bind =>
          have hbind := (mem_visible_of_definitionOf? hdefinition).1
          rw [hvisible] at hbind
          simp only [Step.bind_apply, Step.lookup?]
          rcases h.left.lookup?_cases hbind with ⟨value, hvalue⟩ | ⟨hnone, hlacks⟩ <;>
            rcases h.right.lookup?_cases hbind with ⟨value', hvalue'⟩ | ⟨hnone', hlacks'⟩
          · rw [hvalue, hvalue']
            refine .value ⟨?_, .refl⟩
            rcases List.mem_append.mp hbind with houter | hinner
            · rw [h.left.lookup?_eq bind houter] at hvalue
              rw [h.right.lookup?_eq bind houter] at hvalue'
              exact (h.left.earned bind value houter hvalue).alike (hdemand bind houter)
                (h.right.earned bind value' houter hvalue')
            · exact h.alike bind value value' hinner hvalue hvalue'
          · rw [hvalue, hnone']
            have hsub := visible_subset hsource hvisible hlacks'.1
            rw [h.left.lookup?_eq bind hlacks'.1] at hvalue
            have hkeeps : context.Keeps bind := by rw [Context.Keeps, hvalue]; rfl
            have hlax : ¬ strict := fun hstrict => by
              have hahead := h.ahead hstrict bind hlacks'.1 hkeeps
              rw [Context.Keeps, hlacks'.2] at hahead
              cases hahead
            exact (h.left.earned bind value hlacks'.1 hvalue).tandem_demand' hsource
              (hdemand bind hlacks'.1) hlax hkeeps (h.right.toSettled.narrow hsub)
          · rw [hnone, hvalue']
            have hsub := visible_subset hsource hvisible hlacks.1
            rw [h.right.lookup?_eq bind hlacks.1] at hvalue'
            have hkeeps : context'.Keeps bind := by rw [Context.Keeps, hvalue']; rfl
            exact (h.right.earned bind value' hlacks.1 hvalue').tandem_demand hsource
              (hdemand bind hlacks.1) hkeeps (h.left.toSettled.narrow hsub)
          · rw [hnone, hnone']
            exact (hdemand bind hlacks.1 strict steps steps').demand hsource
              (h.narrow (visible_subset hsource hvisible hlacks.1))

/-! ### Nodes one after the other -/

section

variable (hsource : source.WellFormed) {id node : NodeId}
include hsource

/-- After a child the contexts are still parallel. -/
theorem InTandem.child (hnode : source.InTandem strict outer steps steps' node)
    (hvisible : source.visible id = outer ++ inner)
    (h : source.Parallel strict outer inner context context')
    (hplaced : (Place.expression, node) ∈ source.arena.placements (source.kind id)) :
    Tandem strict
      (fun value later value' later' => value.Alike Pairing.any value' ∧
        context.Pace outer context' later later' ∧
        source.Parallel strict outer inner later later')
      (source.evalSober steps node context) (source.evalSober steps' node context') := by
  have hleft := (source.steady_evalSober hsource steps).child hsource hvisible h.left hplaced
  have hright := (source.steady_evalSober hsource steps').child hsource hvisible h.right hplaced
  refine (hnode inner context context' ((hsource.visible_of_placed hplaced).trans hvisible)
    h).weaken fun value later value' later' heq heq' hpost => ⟨hpost.1, hpost.2, ?_⟩
  exact h.next (hleft later (by rw [heq]; rfl)) (hright later' (by rw [heq']; rfl)) hpost.2
    fun bind hbind => ⟨not_mem_outer hsource hvisible hbind, fun hfalse => hfalse⟩

/-- After a statement they are parallel for the next one. -/
theorem InTandem.statement (hnode : source.InTandem strict outer steps steps' node)
    (hvisible : source.visible node = outer ++ inner)
    (h : source.Parallel strict outer inner context context') (hframes : context.frames ≠ [])
    (hframes' : context'.frames ≠ []) :
    Tandem strict
      (fun value later value' later' => value.Alike Pairing.any value' ∧
        context.Pace outer context' later later' ∧
        source.Parallel strict outer (inner ++ (source.definition? node).toList) later later' ∧
        later.frames ≠ [] ∧ later'.frames ≠ [])
      (source.evalSober steps node context) (source.evalSober steps' node context') := by
  have hlands := source.steady_evalSober hsource steps outer inner node context hvisible h.left
  have hlands' := source.steady_evalSober hsource steps' outer inner node context' hvisible h.right
  refine (hnode inner context context' hvisible h).weaken
    fun value later value' later' heq heq' hpost => ⟨hpost.1, hpost.2, ?_⟩
  rw [heq] at hlands
  rw [heq'] at hlands'
  have hinner (bind : NodeId) (hbind : .bind bind ∈ inner) :
      .bind bind ∉ outer ∧ ¬ source.Binds node bind := by
    refine ⟨not_mem_outer hsource hvisible hbind, hsource.not_binds_of_visible ?_⟩
    rw [hvisible]
    exact List.mem_append_right _ hbind
  refine ⟨(h.next hlands.1 hlands'.1 hpost.2 hinner).define hpost.1 (fun bind hkind => ?_)
    fun bind hkind => ?_, hlands.1.frames_ne_nil hframes, hlands'.1.frames_ne_nil hframes'⟩
  · exact hlands.findSome?_eq hframes hkind
  · exact hlands'.findSome?_eq hframes' hkind

theorem tandem_evalSequence {ids : List NodeId} {last last' : Value}
    (hnodes : ∀ node ∈ ids, source.InTandem strict outer steps steps' node)
    (halong : source.Along .statement (outer ++ inner) ids)
    (hlast : last.Alike Pairing.any last')
    (h : source.Parallel strict outer inner context context') (hframes : context.frames ≠ [])
    (hframes' : context'.frames ≠ []) :
    Tandem strict (AlikeInPace outer context context')
      (evalSequence (source.evalSober steps) last ids context)
      (evalSequence (source.evalSober steps') last' ids context') := by
  induction ids generalizing inner last last' context context' with
  | nil => exact .value ⟨hlast, .refl⟩
  | cons id rest ih =>
      refine Tandem.bind ((hnodes id List.mem_cons_self).statement hsource halong.head h hframes
        hframes') fun value later value' later' hpost => ?_
      obtain ⟨halike, hpace, hparallel, hlater, hlater'⟩ := hpost
      have htail := halong.tail
      rw [List.append_assoc] at htail
      exact (ih (fun node hnode => hnodes node (List.mem_cons_of_mem _ hnode)) htail halike
        hparallel hlater hlater').weaken fun _ _ _ _ _ _ hpost =>
          ⟨hpost.1, hpace.trans hpost.2⟩

theorem tandem_evalEach {ids : List NodeId}
    (hnodes : ∀ node ∈ ids, source.InTandem strict outer steps steps' node)
    (hvisible : source.visible id = outer ++ inner)
    (h : source.Parallel strict outer inner context context')
    (hplaced : ∀ node ∈ ids, (Place.expression, node) ∈ source.arena.placements (source.kind id)) :
    Tandem strict
      (fun values later values' later' => List.Forall₂ (Value.Alike Pairing.any) values values' ∧
        context.Pace outer context' later later' ∧
        source.Parallel strict outer inner later later')
      (evalEach (source.evalSober steps) ids context)
      (evalEach (source.evalSober steps') ids context') := by
  induction ids generalizing context context' with
  | nil => exact .value ⟨.nil, .refl, h⟩
  | cons node rest ih =>
      have hhead := List.mem_cons_self (a := node) (l := rest)
      refine Tandem.bind ((hnodes node hhead).child hsource hvisible h (hplaced node hhead))
        fun value later value' later' hpost => ?_
      obtain ⟨halike, hpace, hparallel⟩ := hpost
      refine Tandem.bind (ih (fun node hnode => hnodes node (List.mem_cons_of_mem _ hnode))
        hparallel fun node hnode => hplaced node (List.mem_cons_of_mem _ hnode))
        fun values last values' last' hpost => ?_
      obtain ⟨halikes, hpace', hparallel'⟩ := hpost
      exact .value ⟨.cons halike halikes, hpace.trans hpace', hparallel'⟩

end

/-- Alike values are of the same types. -/
theorem tandem_checkType {type : Option DeclaredType} {value value' : Value}
    (halike : value.Alike Pairing.any value')
    (hstacks : strict → context'.callStack = context.callStack) :
    Tandem strict (fun _ later _ later' => later = context ∧ later' = context')
      (source.checkType type value context) (source.checkType type value' context') := by
  cases type with
  | none => exact .value ⟨rfl, rfl⟩
  | some declared =>
      simp only [checkType, halike.conforms_eq, halike.typeName_eq]
      split
      · exact .value ⟨rfl, rfl⟩
      · exact .fail hstacks _

/-! ### Constructions -/

/-- Where inputs are bound to alike values, those after them see the same. -/
theorem Parallel.record (h : source.Parallel strict [] inner context context')
    (hsource : source.WellFormed) {input : NodeId} {bind : BindNode}
    (hkind : source.kind input = .bind bind) (hvisible : source.visible input = inner)
    {value value' : Value} (halike : value.Alike Pairing.any value') (hframes : context.frames ≠ [])
    (hframes' : context'.frames ≠ []) :
    source.Parallel strict [] (inner ++ (source.definition? input).toList)
      (context.record input value) (context'.record input value') ∧
      (context.record input value).frames ≠ [] ∧ (context'.record input value').frames ≠ [] := by
  have hadvances {context : Context} (hpoised : source.Poised [] inner context) (value : Value) :
      source.Advances [] (source.Binds input) context (context.record input value) :=
    Advances.record (.refl hpoised.toSettled) List.not_mem_nil ⟨rfl, bind, hkind⟩ value
  have hleft := hadvances h.left value
  have hright := hadvances h.right value'
  refine ⟨(h.next hleft hright ⟨hleft.keeps, hright.keeps, ?_, ?_⟩ fun bind hbind => ?_).define
    halike (fun _ _ => Context.findSome?_record hframes)
    fun _ _ => Context.findSome?_record hframes', hleft.frames_ne_nil hframes,
    hright.frames_ne_nil hframes'⟩
  · exact fun bind hbind => absurd hbind List.not_mem_nil
  · exact fun bind hbind => absurd hbind List.not_mem_nil
  · exact ⟨List.not_mem_nil, hsource.not_binds_of_visible (hvisible ▸ hbind)⟩

section

variable (hsource : source.WellFormed)
  (hclosed : ∀ node, source.InTandem strict [] steps steps' node)
include hsource hclosed

theorem tandem_inputValue {structureName : Name} {input : NodeId} {bind : BindNode}
    {values values' : List Value} (hkind : source.kind input = .bind bind)
    (hvalues : List.Forall₂ (Value.Alike Pairing.any) values values')
    (hvisible : source.visible input = inner)
    (h : source.Parallel strict [] inner context context') (hframes : context.frames ≠ [])
    (hframes' : context'.frames ≠ []) :
    Tandem strict
      (fun value later value' later' => value.Alike Pairing.any value' ∧
        source.Parallel strict [] inner later later' ∧ later.frames ≠ [] ∧ later'.frames ≠ [])
      (source.inputValue (source.evalSober steps) structureName bind values context)
      (source.inputValue (source.evalSober steps') structureName bind values' context') := by
  cases hvalues with
  | cons halike _ => exact .value ⟨halike, h, hframes, hframes'⟩
  | nil =>
      cases hvalue : bind.value with
      | none =>
          simp only [inputValue, hvalue]
          exact .fail h.callStack _
      | some node =>
          simp only [inputValue, hvalue]
          have hplaced : (Place.expression, node) ∈
              source.arena.placements (source.kind input) := by
            simp [hkind, Arena.placements, hvalue]
          have hleft := (source.steady_evalSober hsource steps).child hsource hvisible h.left
            hplaced
          have hright := (source.steady_evalSober hsource steps').child hsource hvisible h.right
            hplaced
          refine ((hclosed node).child hsource hvisible h hplaced).weaken
            fun value later value' later' heq heq' hpost => ⟨hpost.1, hpost.2.2, ?_, ?_⟩
          · exact (hleft later (by rw [heq]; rfl)).frames_ne_nil hframes
          · exact (hright later' (by rw [heq']; rfl)).frames_ne_nil hframes'

theorem tandem_supplyInputs {structureName : Name} {inputs : List NodeId}
    {values values' : List Value} {properties properties' : Properties}
    (halong : source.Along .input inner inputs)
    (hvalues : List.Forall₂ (Value.Alike Pairing.any) values values')
    (hproperties : PropertiesAlike Pairing.any properties properties')
    (h : source.Parallel strict [] inner context context') (hframes : context.frames ≠ [])
    (hframes' : context'.frames ≠ []) :
    Tandem strict
      (fun properties later properties' later' =>
        PropertiesAlike Pairing.any properties properties' ∧
        source.Parallel strict [] (inner ++ inputs.filterMap source.definition?) later later' ∧
        later.frames ≠ [] ∧ later'.frames ≠ [])
      (source.supplyInputs (source.evalSober steps) structureName inputs values properties context)
      (source.supplyInputs (source.evalSober steps') structureName inputs values' properties'
        context') := by
  induction inputs generalizing inner values values' properties properties' context context' with
  | nil =>
      refine .value ⟨hproperties, ?_, hframes, hframes'⟩
      rwa [List.filterMap_nil, List.append_nil]
  | cons input rest ih =>
      have hadmits := halong.admits input List.mem_cons_self
      cases hkind : source.kind input with
      | bind bind =>
          have hbind : source.bind? input = some bind := by simp only [bind?, hkind]
          rw [supplyInputs_cons hbind, supplyInputs_cons hbind]
          refine Tandem.bind (tandem_inputValue hsource hclosed hkind hvalues halong.head h hframes
            hframes') fun value later value' later' hpost => ?_
          obtain ⟨halike, hparallel, hlater, hlater'⟩ := hpost
          refine Tandem.bind (tandem_checkType halike hparallel.callStack)
            fun _ later _ later' hpost => ?_
          obtain ⟨rfl, rfl⟩ := hpost
          obtain ⟨hparallel', hlater, hlater'⟩ :=
            hparallel.record hsource hkind halong.head halike hlater hlater'
          have htail : List.Forall₂ (Value.Alike Pairing.any) values.tail values'.tail := by
            cases hvalues with
            | nil => exact .nil
            | cons _ hrest => exact hrest
          have hrest := ih halong.tail htail (hproperties.set halike bind.name) hparallel' hlater
            hlater'
          rw [filterMap_cons_append]
          exact hrest
      | block | structureDef | property | memberName | reference | evaluate | number | text
      | boolean | binary | unary | conditional => rw [hkind] at hadmits; cases hadmits

theorem tandem_runBody {ids : List NodeId} {properties properties' : Properties}
    (halong : source.Along .statement inner ids)
    (hproperties : PropertiesAlike Pairing.any properties properties')
    (h : source.Parallel strict [] inner context context') (hframes : context.frames ≠ [])
    (hframes' : context'.frames ≠ []) :
    Tandem strict
      (fun properties _ properties' _ => PropertiesAlike Pairing.any properties properties')
      (source.runBody (source.evalSober steps) ids properties context)
      (source.runBody (source.evalSober steps') ids properties' context') := by
  induction ids generalizing inner properties properties' context context' with
  | nil => exact .value hproperties
  | cons id rest ih =>
      simp only [runBody]
      refine Tandem.bind ((hclosed id).statement hsource halong.head h hframes hframes')
        fun value later value' later' hpost => ?_
      obtain ⟨halike, _, hparallel, hlater, hlater'⟩ := hpost
      cases hbind : source.bind? id with
      | none => exact ih halong.tail hproperties hparallel hlater hlater'
      | some bind =>
          exact ih halong.tail (hproperties.set halike bind.name) hparallel hlater hlater'

/-- Constructions with alike arguments build alike instances, wherever they are. -/
theorem tandem_construct {structureId : NodeId} {values values' : List Value} {callSpan : Span}
    (hvalues : List.Forall₂ (Value.Alike Pairing.any) values values')
    (hstacks : strict → context'.callStack = context.callStack) :
    Tandem strict (AlikeInPace outer context context')
      (source.construct (source.evalSober steps) structureId values callSpan context)
      (source.construct (source.evalSober steps') structureId values' callSpan context') := by
  have halike : Tandem strict (fun value _ value' _ => value.Alike Pairing.any value')
      (source.construct (source.evalSober steps) structureId values callSpan context)
      (source.construct (source.evalSober steps') structureId values' callSpan context') := by
    simp only [construct]
    cases hstructure : source.structure? structureId with
    | none => exact .fail hstacks _
    | some definition =>
        have hkind := structure?_eq_some.mp hstructure
        simp only [hvalues.length_eq]
        split
        · exact .fail hstacks _
        · refine Tandem.inFrame hstacks fun inner inner' henter henter' => ?_
          have hparallel : source.Parallel strict [] [] inner inner' :=
            (Parallel.nil hstacks).enter henter henter'
          refine Tandem.bind (tandem_supplyInputs hsource hclosed (hsource.along_inputs hkind)
            hvalues rfl hparallel (Context.frames_ne_nil henter) (Context.frames_ne_nil henter'))
            fun properties later properties' later' hpost => ?_
          obtain ⟨hproperties, hparallel', hlater, hlater'⟩ := hpost
          refine Tandem.bind (tandem_runBody hsource hclosed (hsource.along_body hkind) hproperties
            hparallel' hlater hlater') fun properties later properties' later' hproperties' => ?_
          exact .value ⟨_, _, rfl, trivial, hproperties'⟩
  refine halike.weaken fun value later value' later' heq heq' hvalue => ⟨hvalue, ?_⟩
  obtain ⟨built, -, rfl⟩ := exists_built_of_evalSober hsource
    (show Outcome.context? _ = some later by rw [heq]; rfl)
  obtain ⟨built', -, rfl⟩ := exists_built_of_evalSober hsource
    (show Outcome.context? _ = some later' by rw [heq']; rfl)
  exact ⟨fun _ h => h, fun _ h => h, fun _ _ => .inl, fun _ _ => .inl⟩

end

end Bindery.Source
