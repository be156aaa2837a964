import Bindery.Proofs.Eval.Parallel

/-!
Every node is evaluated in tandem. One step takes it from the nodes that the evaluation goes to:
those inside the node, the binds it has to demand, and, within constructions, any. The induction is
on the number of nested evaluations where there is nothing to demand, and then on the node.
-/

namespace Bindery.Source

variable {source : Source} {strict : Prop} {outer inner : List Definition}
  {context context' : Context} {steps steps' : Nat} {id : NodeId}

/-! ### The kinds of nodes -/

section

variable (hsource : source.WellFormed)
  (hchild : ∀ node ∈ source.children id, source.InTandem strict outer steps steps' node)
  (hvisible : source.visible id = outer ++ inner)
  (h : source.Parallel strict outer inner context context')
include hsource hchild hvisible h

/-- After a child that is an expression both go on from parallel contexts. -/
theorem tandem_child {node : NodeId}
    (hplaced : (Place.expression, node) ∈ source.arena.placements (source.kind id)) :
    Tandem strict
      (fun value later value' later' => value.Alike Pairing.any value' ∧
        context.Pace outer context' later later' ∧
        source.Parallel strict outer inner later later')
      (source.evalSober steps node context) (source.evalSober steps' node context') :=
  (hchild node (WellFormed.mem_children_of_placed hplaced)).child hsource hvisible h hplaced

theorem tandem_evalBlock {statements : NodeRange} (hkind : source.kind id = .block statements) :
    Tandem strict (AlikeInPace outer context context')
      (source.evalBlock (source.evalSober steps) id statements context)
      (source.evalBlock (source.evalSober steps') id statements context') := by
  have halong := hsource.along_block hkind
  rw [hvisible] at halong
  refine Tandem.inFrame h.callStack fun inner inner' henter henter' => ?_
  have hnone : Value.none.Alike Pairing.any .none := rfl
  refine (tandem_evalSequence hsource (fun node hnode => hchild node ?_) halong hnone
    (h.enter henter henter') (Context.frames_ne_nil henter) (Context.frames_ne_nil henter')).weaken
      fun value later value' later' _ _ hpost => ⟨hpost.1, .inFrame henter henter' hpost.2⟩
  rw [WellFormed.children_of_block hkind]
  exact hnode

theorem tandem_evalBind {bind : BindNode} (hkind : source.kind id = .bind bind) :
    Tandem strict (AlikeInPace outer context context')
      (source.evalBind (source.evalSober steps) id bind context)
      (source.evalBind (source.evalSober steps') id bind context') := by
  simp only [evalBind]
  cases hvalue : bind.value with
  | none => exact .fail h.callStack _
  | some node =>
      have hid := not_mem_outer_of_visible hsource hvisible
      refine Tandem.bind (tandem_child hsource hchild hvisible h
        (by simp [hkind, Arena.placements, hvalue]))
        fun value later value' later' hpost => ?_
      obtain ⟨halike, hpace, hparallel⟩ := hpost
      refine Tandem.bind (tandem_checkType halike hparallel.callStack)
        fun _ checked _ checked' hpost => ?_
      obtain ⟨rfl, rfl⟩ := hpost
      exact .value ⟨halike, hpace.record hid value value'⟩

theorem tandem_evalConditional {condition yes no : NodeId}
    (hkind : source.kind id = .conditional condition yes no) :
    Tandem strict (AlikeInPace outer context context')
      (source.evalConditional (source.evalSober steps) condition yes no context)
      (source.evalConditional (source.evalSober steps') condition yes no context') := by
  have hplaced (node : NodeId) (hnode : node = condition ∨ node = yes ∨ node = no) :
      (Place.expression, node) ∈ source.arena.placements (source.kind id) := by
    simpa [hkind, Arena.placements] using hnode
  refine Tandem.bind (tandem_child hsource hchild hvisible h (hplaced condition (.inl rfl)))
    fun value later value' later' hpost => ?_
  obtain ⟨halike, hpace, hparallel⟩ := hpost
  have hbranch {node : NodeId} (hnode : node = yes ∨ node = no) :
      Tandem strict (AlikeInPace outer context context')
        (source.evalSober steps node later) (source.evalSober steps' node later') :=
    (tandem_child hsource hchild hvisible hparallel (hplaced node (.inr hnode))).weaken
      fun _ _ _ _ _ _ hpost => ⟨hpost.1, hpace.trans hpost.2.1⟩
  cases value with
  | boolean choice =>
      cases halike
      cases choice with
      | true => exact hbranch (.inl rfl)
      | false => exact hbranch (.inr rfl)
  | inst =>
      obtain ⟨_, _, rfl, -, -⟩ := halike
      exact .fail hparallel.callStack _
  | none | text | number | structureRef | error =>
      cases halike
      exact .fail hparallel.callStack _

theorem tandem_evalUnary {op : UnaryOp} {operand : NodeId}
    (hkind : source.kind id = .unary op operand) :
    Tandem strict (AlikeInPace outer context context')
      (source.evalUnary (source.evalSober steps) op operand context)
      (source.evalUnary (source.evalSober steps') op operand context') := by
  refine Tandem.bind (tandem_child hsource hchild hvisible h (by simp [hkind, Arena.placements]))
    fun value later value' later' hpost => ?_
  obtain ⟨halike, hpace, hparallel⟩ := hpost
  exact .ofExcept (halike.unary source.interner op) hparallel.callStack
    fun _ _ hresult => ⟨hresult, hpace⟩

theorem tandem_evalProperty {subject member : NodeId}
    (hkind : source.kind id = .property subject member) :
    Tandem strict (AlikeInPace outer context context')
      (source.evalProperty (source.evalSober steps) subject member context)
      (source.evalProperty (source.evalSober steps') subject member context') := by
  refine Tandem.bind (tandem_child hsource hchild hvisible h (by simp [hkind, Arena.placements]))
    fun value later value' later' hpost => ?_
  obtain ⟨halike, hpace, hparallel⟩ := hpost
  exact .ofExcept (propertyOf_alike halike member) hparallel.callStack
    fun _ _ hresult => ⟨hresult, hpace⟩

/-- Operands that are alike compare alike where identities do not matter. -/
theorem tandem_binary {op : BinaryOp} {left right : NodeId}
    (hkind : source.kind id = .binary op left right) :
    Tandem strict (AlikeInPace outer context context')
      (source.soberKind (source.evalSober steps) id context)
      (source.soberKind (source.evalSober steps') id context') := by
  simp only [soberKind, hkind]
  refine Tandem.bind (tandem_child hsource hchild hvisible h (by simp [hkind, Arena.placements]))
    fun value between value' between' hpost => ?_
  obtain ⟨halike, hpace, hparallel⟩ := hpost
  refine Tandem.bind (tandem_child hsource hchild hvisible hparallel
    (by simp [hkind, Arena.placements]))
    fun other later other' later' hpost => ?_
  obtain ⟨halike', hpace', hparallel'⟩ := hpost
  by_cases hsame : value.beq other = value.same other
  · by_cases hsame' : value'.beq other' = value'.same other'
    · have hbeq : value.beq other = value'.beq other' := by
        rw [hsame, hsame', halike.same_eq halike']
      simp only [compared, if_pos hsame, if_pos hsame']
      exact .ofExcept (halike.binary_of_beq_eq halike' hbeq source.interner op) hparallel'.callStack
        fun _ _ hresult => ⟨hresult, hpace.trans hpace'⟩
    · simp only [compared, if_neg hsame']
      exact .unfinishedRight
  · simp only [compared, if_neg hsame]
    exact .unfinishedLeft

/-- A construction is in tandem if all evaluations inside of it are. -/
theorem tandem_evalEvaluate (hclosed : ∀ node, source.InTandem strict [] steps steps' node)
    {callee : NodeId} {arguments : NodeRange}
    (hkind : source.kind id = .evaluate callee arguments) :
    Tandem strict (AlikeInPace outer context context')
      (source.evalEvaluate (source.evalSober steps) id callee arguments context)
      (source.evalEvaluate (source.evalSober steps') id callee arguments context') := by
  have hplaced (node : NodeId) (hnode : node ∈ source.list arguments) :
      (Place.expression, node) ∈ source.arena.placements (source.kind id) :=
    WellFormed.placed_argument hkind hnode
  refine Tandem.bind (tandem_child hsource hchild hvisible h (by simp [hkind, Arena.placements]))
    fun called between called' between' hpost => ?_
  obtain ⟨hcalled, hpace, hparallel⟩ := hpost
  refine Tandem.bind (tandem_evalEach hsource
    (fun node hnode => hchild node (WellFormed.mem_children_of_placed (hplaced node hnode)))
    hvisible hparallel hplaced)
    fun values later values' later' hpost => ?_
  obtain ⟨hvalues, hpace', hparallel'⟩ := hpost
  cases called with
  | structureRef structureId name =>
      cases hcalled
      exact (tandem_construct hsource hclosed hvalues hparallel'.callStack).weaken
        fun _ _ _ _ _ _ hpost => ⟨hpost.1, (hpace.trans hpace').trans hpost.2⟩
  | inst =>
      obtain ⟨_, _, rfl, -, -⟩ := hcalled
      exact .fail hparallel'.callStack _
  | none | text | number | boolean | error =>
      cases hcalled
      exact .fail hparallel'.callStack _

end

/-! ### One step, and all of them -/

/-- One step: a node is evaluated in tandem if its children are, the binds on demand, and
whatever constructions go to. -/
theorem inTandem_succ (hsource : source.WellFormed)
    (hchild : ∀ node ∈ source.children id, source.InTandem strict outer steps steps' node)
    (hdemand : ∀ bind, .bind bind ∈ outer → .bind bind ∈ source.visible id →
      ∀ strict steps steps', source.InTandem strict (source.visible bind) steps steps' bind)
    (hclosed : ∀ node, source.InTandem strict [] steps steps' node) :
    source.InTandem strict outer (steps + 1) (steps' + 1) id := by
  intro inner context context' hvisible h
  have hdemand' (bind : NodeId) (hbind : .bind bind ∈ outer) :=
    hdemand bind hbind (by rw [hvisible]; exact List.mem_append_left _ hbind)
  refine Tandem.sober (.located ?_)
  by_cases hbinary : ∃ op left right, source.kind id = .binary op left right
  · obtain ⟨op, left, right, hbinary⟩ := hbinary
    exact tandem_binary hsource hchild hvisible h hbinary
  · have hnot (op : BinaryOp) (left right : NodeId) : source.kind id ≠ .binary op left right :=
      fun heq => hbinary ⟨op, left, right, heq⟩
    rw [soberKind_eq hnot, soberKind_eq hnot]
    simp only [evalKind]
    cases hkind : source.kind id with
    | block statements => exact tandem_evalBlock hsource hchild hvisible h hkind
    | bind bind => exact tandem_evalBind hsource hchild hvisible h hkind
    | memberName name | reference name => exact tandem_evalReference hsource hvisible hdemand' h
    | evaluate callee arguments => exact tandem_evalEvaluate hsource hchild hvisible h hclosed hkind
    | property subject member => exact tandem_evalProperty hsource hchild hvisible h hkind
    | unary op operand => exact tandem_evalUnary hsource hchild hvisible h hkind
    | conditional condition yes no => exact tandem_evalConditional hsource hchild hvisible h hkind
    | structureDef definition | number bits | text content | boolean value =>
        exact .value ⟨rfl, .refl⟩
    | binary op left right => exact absurd hkind (hnot op left right)

theorem inTandem_zero (steps' : Nat) : source.InTandem strict outer 0 steps' id :=
  fun _ _ _ _ _ => .unfinishedLeft

theorem inTandem_zero' (steps : Nat) : source.InTandem strict outer steps 0 id :=
  fun _ _ _ _ _ => .unfinishedRight

/-- Where nothing is demanded: by induction on the nested evaluations. -/
theorem inTandem_nil (hsource : source.WellFormed) (strict : Prop) (steps steps' : Nat)
    (id : NodeId) : source.InTandem strict [] steps steps' id := by
  induction steps generalizing steps' id with
  | zero => exact inTandem_zero steps'
  | succ steps ih =>
      cases steps' with
      | zero => exact inTandem_zero' _
      | succ steps' =>
          exact inTandem_succ hsource (fun node _ => ih steps' node)
            (fun bind hbind => absurd hbind List.not_mem_nil) (ih steps')

/-- Everywhere: by induction on the node, for its children and what it sees come before it. -/
theorem inTandem (hsource : source.WellFormed) (strict : Prop) (outer : List Definition)
    (steps steps' : Nat) (id : NodeId) : source.InTandem strict outer steps steps' id := by
  induction hindex : id.index using Nat.strongRecOn generalizing id strict outer steps steps' with
  | ind index ih =>
      subst hindex
      cases steps with
      | zero => exact inTandem_zero steps'
      | succ steps =>
          cases steps' with
          | zero => exact inTandem_zero' _
          | succ steps' =>
              refine inTandem_succ hsource (fun node hnode => ?_)
                (fun bind _ hbind strict steps steps' => ?_)
                (source.inTandem_nil hsource strict steps steps')
              · exact ih node.index (hsource.index_lt_of_mem_children hnode) strict outer steps
                  steps' node rfl
              · exact ih bind.index (hsource.index_lt_of_visible hbind) strict _ steps steps' bind
                  rfl

end Bindery.Source
