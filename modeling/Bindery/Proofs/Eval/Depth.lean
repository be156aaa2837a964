import Bindery.Proofs.Eval.Companion
import Bindery.Proofs.Eval.Descent
import Bindery.Proofs.Eval.Direct
import Bindery.Proofs.Eval.Shape

/-!
How deep direct evaluation goes. The evaluation of the root comes to a node outside of structures
with no frames but those of the blocks around it. Evaluated on its own, a node has none of these,
but the binds that it asks for are evaluated on top of the blocks that have been opened on the way
to their references, and not at the depth of their own place. Where these blocks are more than the
ones around such a bind, the limit of the whole program may not suffice for the node; the difference
is what has to be added to it.
-/

namespace Bindery.Source

variable {source : Source}

/-- How many blocks stand around a node. -/
def blocksAround (source : Source) (id : NodeId) : Nat :=
  (source.ancestors id).countP fun outer => (source.kind outer).shape = .block

/-- `source.Borrows top id bind blocks`: when `top` is evaluated on its own, `id` may have `bind`
evaluated, which stands outside of `top`, inside of `blocks` blocks that have been opened since. The
bind is named under `id`, or it is borrowed for a bind that is named there and outside of `top` too;
each of them is evaluated where it is named. -/
inductive Borrows (source : Source) : (top id bind : NodeId) → (blocks : Nat) → Prop
  | named {top id name bind} : source.kind id = .reference name →
      source.definitionOf? id name = some (.bind bind) → bind ≠ top → ¬ source.Under top bind →
      Borrows source top id bind 0
  | further {top id name bind bind' blocks} : source.kind id = .reference name →
      source.definitionOf? id name = some (.bind bind) → bind ≠ top → ¬ source.Under top bind →
      Borrows source bind bind bind' blocks → Borrows source top id bind' blocks
  | expression {top id node bind blocks} :
      (Place.expression, node) ∈ source.arena.placements (source.kind id) →
      Borrows source top node bind blocks → Borrows source top id bind blocks
  | statement {top id statements node bind blocks} : source.kind id = .block statements →
      node ∈ source.list statements → Borrows source top node bind blocks →
      Borrows source top id bind (blocks + 1)

/-- A bind is borrowed inside of fewer blocks than there are numbers between it and the node. -/
theorem Borrows.add_index_lt (hsource : source.WellFormed) {top id bind : NodeId} {blocks : Nat}
    (h : source.Borrows top id bind blocks) : blocks + bind.index < id.index := by
  induction h with
  | named _ hdefinition =>
      rw [Nat.zero_add]
      exact hsource.index_lt_of_visible (mem_visible_of_definitionOf? hdefinition).1
  | further _ hdefinition _ _ _ ih =>
      have hvisible := (mem_visible_of_definitionOf? hdefinition).1
      exact Nat.lt_trans ih (hsource.index_lt_of_visible hvisible)
  | expression hplaced _ ih => exact Nat.lt_trans ih (hsource.index_lt_of_placed hplaced)
  | @statement _ id _ node _ _ hkind hnode _ ih =>
      have hmem : node ∈ source.children id := by
        rw [WellFormed.children_of_block hkind]
        exact hnode
      have := hsource.index_lt_of_mem_children hmem
      omega

theorem Borrows.kind_eq (hsource : source.WellFormed) {top id bind : NodeId} {blocks : Nat}
    (h : source.Borrows top id bind blocks) : ∃ declared, source.kind bind = .bind declared := by
  induction h with
  | named _ hdefinition =>
      exact hsource.kind_of_visible (mem_visible_of_definitionOf? hdefinition).1
  | further _ _ _ _ _ ih | expression _ _ ih | statement _ _ _ ih => exact ih

theorem blocksAround_of_mem_children (hsource : source.WellFormed) {parent id : NodeId}
    (hid : id ∈ source.children parent) :
    source.blocksAround id =
      source.blocksAround parent + if (source.kind parent).shape = .block then 1 else 0 := by
  simp only [blocksAround, hsource.ancestors_of_parent hid, List.countP_cons, decide_eq_true_eq]

/-- What a call outside of structures leads to, unless it demands a bind: the node called is a child
within a further block if the frame of one is entered. -/
theorem Calls.of_outside (hsource : source.WellFormed) {recur : NodeId → Step Value}
    {id node : NodeId} {context later : Context} {entered : Option NodeId}
    (h : source.Calls recur id context entered node later) (houtside : source.Outside node)
    (hfound : ∀ name, source.definitionOf? id name = some (.bind node) →
      context.lookup? node ≠ none) :
    source.Outside id ∧
      source.blocksAround node = source.blocksAround id + entered.toList.length ∧
      ∀ top bind blocks, source.Borrows top node bind blocks →
        source.Borrows top id bind (blocks + entered.toList.length) := by
  have hchild (hplaced : (Place.expression, node) ∈ source.arena.placements (source.kind id)) :
      source.Outside id ∧ source.blocksAround node = source.blocksAround id + 0 ∧
        ∀ top bind blocks, source.Borrows top node bind blocks →
          source.Borrows top id bind (blocks + 0) := by
    have hmem := WellFormed.mem_children_of_placed hplaced
    refine ⟨houtside.of_child hmem, ?_, fun top bind blocks => .expression hplaced⟩
    rw [blocksAround_of_mem_children hsource hmem, if_neg]
    intro hblock
    cases hkind : source.kind id with
    | block statements => simp [hkind, Arena.placements] at hplaced
    | bind | structureDef | property | memberName | reference | evaluate | number | text | boolean
    | binary | unary | conditional => rw [hkind] at hblock; cases hblock
  cases h with
  | statement hkind hlist =>
      have hnode : node ∈ source.children id := by
        rw [WellFormed.children_of_block hkind, hlist]
        simp
      refine ⟨houtside.of_child hnode, ?_, fun top bind blocks => .statement hkind ?_⟩
      · rw [blocksAround_of_mem_children hsource hnode, hkind]
        rfl
      · rw [hlist]
        simp
  | demanded _ hdefinition hlookup => exact absurd hlookup (hfound _ hdefinition)
  | @default _ _ _ _ _ input _ _ _ _ _ hconstructs hlist _ _ hbind hvalue =>
      refine absurd houtside (not_outside_of_structureDef
        (structure?_eq_some.mp hconstructs.defined) (.inl ⟨input, by rw [hlist]; simp, ?_⟩))
      exact WellFormed.mem_children_of_placed (placed_value hbind hvalue)
  | bodyStatement hconstructs _ hlist =>
      exact absurd houtside (not_outside_of_structureDef (structure?_eq_some.mp hconstructs.defined)
        (.inr (by rw [hlist]; simp)))
  | value hkind hvalue => exact hchild (by simp [hkind, Arena.placements, hvalue])
  | subject hkind | callee hkind | left hkind | operand hkind | condition hkind | right hkind =>
      exact hchild (by simp [hkind, Arena.placements])
  | @branch _ _ _ choice _ hkind =>
      exact hchild (by cases choice <;> simp [hkind, Arena.placements])
  | argument hkind hlist =>
      exact hchild (WellFormed.placed_argument hkind (by rw [hlist]; simp))

/-- Outside of structures the evaluation of the root runs just the blocks around a node. -/
theorem depth_of_reached (hsource : source.WellFormed) {limits : Limits} {owner steps : Nat}
    {live : List NodeId} {id : NodeId} {context : Context}
    (h : source.Reached (.fresh limits owner) steps live id context)
    (houtside : source.Outside id) :
    context.depth = source.blocksAround id ∧ context.maxDepth = limits.maxDepth := by
  induction h with
  | root =>
      refine ⟨?_, rfl⟩
      rw [blocksAround, WellFormed.ancestors_of_parent?_eq_none hsource.parent?_root]
      rfl
  | call hreached hcall ih =>
      have hsituated := situated_of_reached hsource rfl rfl hreached
      obtain ⟨houtside', hblocks, -⟩ := hcall.of_outside hsource houtside fun name hdefinition => by
        obtain ⟨_, value, -, -, hvalue⟩ := hsituated.lookup?_eq hdefinition
        rw [show _ = some value from hvalue _]
        exact Option.some_ne_none value
      obtain ⟨hdepth, hmaxDepth⟩ := ih houtside'
      exact ⟨by rw [hcall.depth_eq hsource, hdepth, hblocks],
        (hcall.maxDepth_eq hsource).trans hmaxDepth⟩

/-- In a program that has a value every statement is evaluated. -/
theorem exists_reached_of_value {start later : Context} {value : Value} {statements : NodeRange}
    {node : NodeId} (hkind : source.kind source.root = .block statements)
    (hnode : node ∈ source.list statements)
    (h : source.eval (source.stepBound start) source.root start = .value value later) :
    ∃ steps context, source.Reached start steps [source.root] node context := by
  have hroot : source.Reached start (source.stepBound start) [] source.root start := .root
  cases hsteps : source.stepBound start with
  | zero =>
      rw [hsteps] at h
      cases h
  | succ steps =>
      rw [hsteps] at h hroot
      have hblock := Step.eq_value_of_located h
      simp only [evalKind, hkind] at hblock
      obtain ⟨inner, between, henter, hsequence, -⟩ := Step.exists_of_inFrame_eq_value hblock
      obtain ⟨before, after, hlist⟩ := List.append_of_mem hnode
      rw [hlist, evalSequence_append] at hsequence
      obtain ⟨last, context, hbefore, -⟩ := Step.exists_of_bind_eq_value hsequence
      exact ⟨steps, context, hroot.call (.statement hkind hlist henter hbefore)⟩

/-- No structure is defined above the statements of the program. -/
theorem outside_of_root (hsource : source.WellFormed) {statements : NodeRange} {node : NodeId}
    (hkind : source.kind source.root = .block statements)
    (hnode : node ∈ source.list statements) : source.Outside node := by
  intro top definition htop hunder
  have hmem : node ∈ source.children source.root := by
    rw [WellFormed.children_of_block hkind]
    exact hnode
  rcases (hsource.under_iff_of_mem_children hmem).mp hunder with rfl | hunder
  · cases hkind.symm.trans htop
  · exact hsource.not_under_of_parent?_eq_none hsource.parent?_root top hunder

/-- A node that sees something outside of structures is outside of structures itself. -/
theorem outside_of_visible (hsource : source.WellFormed) {id bind : NodeId}
    (hvisible : .bind bind ∈ source.visible id) (houtside : source.Outside bind) :
    source.Outside id := fun top definition htop hunder =>
  houtside top definition htop (hsource.under_of_mem_definitionsInScope htop id hunder (.bind bind)
    (mem_definitionsInScope_iff.mpr hvisible))

/-- The second run has at least as much room as the first one, here and where it will have a bind of
the ledger evaluated. The node is evaluated within the evaluation of `top`. -/
structure Roomy (source : Source) (ledger : List Line) (top id : NodeId)
    (context context' : Context) : Prop where
  clear : source.Clear ledger top
  room : context.maxDepth + context'.depth ≤ context'.maxDepth + context.depth
  borrows : source.Outside id → ∀ line ∈ ledger, ∀ blocks,
    source.Borrows top id line.bind blocks →
      line.start.maxDepth + context'.depth + blocks ≤ context'.maxDepth + line.start.depth

section

variable {ledger : List Line} {pairing : Pairing} {top id node : NodeId}
  {context context' later later' : Context} {steps steps' : Nat}

namespace Roomy

theorem calls (h : source.Roomy ledger top id context context') (hsource : source.WellFormed)
    {entered : Option NodeId}
    (hcalls : source.Calls (source.eval steps) id context entered node later)
    (hcalls' : source.Calls (source.eval steps') id context' entered node later')
    (hshares : Shares ledger pairing (source.visible id) context context') :
    source.Roomy ledger top node later later' := by
  have hdepth := hcalls.depth_eq hsource
  have hdepth' := hcalls'.depth_eq hsource
  have hmaxDepth := hcalls.maxDepth_eq hsource
  have hmaxDepth' := hcalls'.maxDepth_eq hsource
  have hroom := h.room
  refine ⟨h.clear, by omega, fun houtside line hline blocks hborrows => ?_⟩
  obtain ⟨houtside', -, hfurther⟩ := hcalls.of_outside hsource houtside fun name hdefinition => by
    obtain ⟨value, hvalue, -⟩ := hshares node (mem_visible_of_definitionOf? hdefinition).1
    rw [hvalue]
    exact Option.some_ne_none value
  have := h.borrows houtside' line hline _ (hfurther top line.bind blocks hborrows)
  omega

/-- Where the second run demands a bind, it has the room that the first run had for it, and what is
borrowed for the bind is borrowed here. -/
theorem demanded {earlier after : List Line} {line : Line} {name : Name}
    (h : source.Roomy (earlier ++ line :: after) top id context context')
    (hsource : source.WellFormed) (hchronicle : source.Chronicle lax (earlier ++ line :: after))
    (hkind : source.kind id = .reference name)
    (hdefinition : source.definitionOf? id name = some (.bind line.bind)) :
    source.Roomy earlier line.bind line.bind line.start context' := by
  have hline : line ∈ earlier ++ line :: after := by simp
  have houtside := outside_of_visible hsource (mem_visible_of_definitionOf? hdefinition).1
    (hchronicle.outside line hline)
  obtain ⟨hne, hunder⟩ := h.clear line hline
  refine ⟨hchronicle.clear hsource, ?_, fun _ old hold blocks hborrows => ?_⟩
  · exact h.borrows houtside line hline 0 (.named hkind hdefinition hne hunder)
  · exact h.borrows houtside old (List.mem_append_left _ hold) blocks
      (.further hkind hdefinition hne hunder hborrows)

end Roomy

/-- Where a frame is refused to the second run, the first one is stuck. -/
theorem Aligned.refused (haligned : source.Aligned lax ledger pairing id context context')
    (h : source.Lockstep lax (source.eval steps) (source.eval steps')) (hsource : source.WellFormed)
    (hchronicle : source.Chronicle lax ledger)
    (hroom : context.maxDepth + context'.depth ≤ context'.maxDepth + context.depth)
    (hrefused : source.Refused (source.eval steps') id context') :
    (source.evalKind (source.eval steps) id context).Stuck := by
  cases hrefused with
  | block hkind hfull =>
      simp only [evalKind, hkind]
      exact Step.stuck_inFrame_of_full (by omega)
  | @construction callee arguments structureId name between' values' later' definition hkind
    hcallee' harguments' hdefined hlength hfull =>
      rcases haligned.after_arguments h hsource hchronicle hkind (List.append_nil _).symm hcallee'
        harguments' with
        hstuck | ⟨pairing', called, values, between, later, hcallee, harguments, -, hcalled,
          hvalues⟩
      · exact hstuck
      obtain rfl : called = .structureRef structureId name := hcalled.symm
      have hkeeps := source.eval_keepsCallStack steps
      have hkeeps' := source.eval_keepsCallStack steps'
      have hstack : later.callStack = context.callStack :=
        (callStack_of_evalEach hkeeps harguments).trans (callStack_of_recur hkeeps hcallee)
      have hstack' : later'.callStack = context'.callStack :=
        (callStack_of_evalEach hkeeps' harguments').trans (callStack_of_recur hkeeps' hcallee')
      simp only [evalKind, hkind, evalEvaluate]
      rw [Step.bind_of_value hcallee, Step.bind_of_value harguments]
      simp only [construct, hdefined, if_neg (Nat.not_lt.mpr (hvalues.length_eq ▸ hlength))]
      refine Step.stuck_inFrame_of_full ?_
      simp only [Context.depth, Context.maxDepth, hstack, hstack'] at hfull hroom ⊢
      omega

/-- The second run exceeds its limit only where the first one is stuck. -/
theorem stuck_of_overflows (hsource : source.WellFormed) (steps' : Nat) :
    ∀ {steps : Nat} {ledger : List Line} {pairing : Pairing} {top id : NodeId}
      {context context' : Context}, source.Chronicle lax ledger →
      source.Aligned lax ledger pairing id context context' →
      source.Roomy ledger top id context context' →
      (source.eval steps' id context').Overflows → (source.eval steps id context).Stuck := by
  induction steps' with
  | zero => exact fun _ _ _ hover => hover.elim
  | succ steps' ih =>
      intro steps ledger pairing top id context context' hchronicle haligned hroomy hover
      cases steps with
      | zero => trivial
      | succ steps =>
          refine Step.stuck_located ?_
          have h := source.lockstep_eval hsource lax steps' steps
          rcases refused_or_exists_call (Step.overflows_located hover) with
            hrefused | ⟨entered, node, later', hcalls', hnode⟩
          · exact haligned.refused h hsource hchronicle hroomy.room hrefused
          rcases haligned.calls h hsource hchronicle hcalls' with
            hstuck | ⟨pairing', later, hcalls, haligned'⟩ |
              ⟨line, hline, rfl, rfl, rfl, name, hkind, hdefinition⟩
          · exact hstuck
          · exact hcalls.stuck (ih hchronicle haligned'
              (hroomy.calls hsource hcalls hcalls' haligned.shares) hnode)
          · -- The first run has evaluated the bind before, so it was not stuck there.
            obtain ⟨earlier, after, rfl⟩ := List.append_of_mem hline
            have hjustified := hchronicle.justified earlier line after rfl
            obtain ⟨habreast, hshares⟩ := Lockstep.abreast_start hchronicle haligned.abreast
            have hstuck : (source.eval line.steps line.bind line.start).Stuck :=
              ih hchronicle.left ⟨hchronicle.clear hsource, hjustified.admits, habreast, hshares⟩
                (hroomy.demanded hsource hchronicle hkind hdefinition) hnode
            rw [hjustified.eval_eq] at hstuck
            exact hstuck.elim

end

/-- An answer that is an overflow comes from an evaluation that exceeds its limit. -/
theorem overflows_of_overflowed (hsource : source.WellFormed) {id : NodeId} {limits : Limits}
    {owner : Nat} (h : Overflowed (source.evaluate id (.fresh limits owner)).1) :
    (source.eval (source.stepBound (.fresh limits owner)) id (.fresh limits owner)).Overflows := by
  obtain ⟨error, herror, hover⟩ := h
  have hends := source.eval_ne_unfinished hsource
    (source.nesting_lt_stepBound id (.fresh limits owner))
  have hkeeps := source.governs_shapes hsource limits.maxDepth
    (source.stepBound (.fresh limits owner)) id () (.fresh limits owner)
    ⟨.fresh limits owner, rfl⟩
  rw [evaluate] at herror
  cases houtcome : source.eval (source.stepBound (.fresh limits owner)) id
      (.fresh limits owner) with
  | value value later =>
      -- A value is never an error.
      rw [houtcome] at hkeeps herror
      obtain ⟨_, -, -, hshaped, -⟩ := hkeeps
      obtain rfl : value = .error error := herror
      exact hshaped.elim
  | error failure later =>
      rw [houtcome] at herror
      obtain rfl : failure = error := Value.error.inj herror
      exact hover
  | unfinished => exact absurd houtcome hends

theorem overflowed_of_stuck {id : NodeId} {context : Context}
    (h : (source.eval (source.stepBound context) id context).Stuck) :
    Overflowed (source.evaluate id context).1 := by
  rw [evaluate]
  cases houtcome : source.eval (source.stepBound context) id context with
  | value => exact (houtcome ▸ h : Outcome.Stuck (.value _ _)).elim
  | error failure later =>
      rw [houtcome] at h
      exact ⟨failure, rfl, h⟩
  | unfinished => exact ⟨_, rfl, context.maxDepth, rfl⟩

/-- A limit that suffices for the whole program suffices for each node outside of structures that
the evaluation of the root comes to, if it is raised by as much as the blocks inside of which binds
are borrowed exceed the blocks around these binds. -/
theorem evaluate_direct_within {name text : String} {interner : Interner} {source : Source}
    (h : (parse name text interner).1 = .ok source) (limits : Limits) (owner owner' : Nat)
    (hroot : ¬ Overflowed (source.evaluateRoot (.fresh limits owner)).1)
    {steps : Nat} {live : List NodeId} {id : NodeId} {context : Context}
    (hreached : source.Reached (.fresh limits owner) steps live id context)
    (houtside : source.Outside id) {extra : Nat}
    (hextra : ∀ bind blocks, source.Borrows id id bind blocks →
      blocks ≤ source.blocksAround bind + extra) :
    ¬ Overflowed (source.evaluate id (.fresh ⟨limits.maxDepth + extra⟩ owner')).1 := by
  intro hover
  have hsource := wellFormed_of_parse h
  have hsituated := situated_of_reached hsource rfl rfl hreached
  obtain ⟨ledger, hcovers⟩ := covers_of_reached hsource rfl rfl hreached houtside
  obtain ⟨habreast, hshares⟩ := hcovers.abreast ⟨limits.maxDepth + extra⟩ owner'
  have hclear : source.Clear ledger id := fun line hline => by
    have hvisible := mem_definitionsInScope_iff.mpr (hcovers.defined line hline)
    have hapart := hsource.apart_of_mem_definitionsInScope hvisible
    exact ⟨hapart.1, hapart.2.2⟩
  have hroomy : source.Roomy ledger id id context (.fresh ⟨limits.maxDepth + extra⟩ owner') := by
    refine ⟨hclear, ?_, fun _ line hline blocks hborrows => ?_⟩
    · obtain ⟨-, hmaxDepth⟩ := depth_of_reached hsource hreached houtside
      show context.maxDepth + 0 ≤ limits.maxDepth + extra + context.depth
      omega
    · obtain ⟨live', hstart⟩ := hcovers.reached line hline
      obtain ⟨hdepth, hmaxDepth⟩ := depth_of_reached hsource hstart
        (hcovers.chronicle.outside line hline)
      have hblocks := hextra line.bind blocks hborrows
      show line.start.maxDepth + 0 + blocks ≤ limits.maxDepth + extra + line.start.depth
      omega
  refine hroot (overflowed_of_stuck (hreached.stuck ?_))
  exact stuck_of_overflows hsource _ hcovers.chronicle
    ⟨hclear, hsituated.admits, habreast, hshares⟩ hroomy (overflows_of_overflowed hsource hover)

/-- A bind with two blocks inside, which a statement reads within two blocks. The program needs
three frames at once; the statement alone needs four, for it has the bind evaluated within its
blocks. -/
theorem exists_borrowing_program :
    ∃ source steps context,
      (parse "<code>" "a: ((\"x\"))\n((a))" .empty).1 = .ok source ∧
      ¬ Overflowed (source.evaluateRoot (.fresh ⟨3⟩ 0)).1 ∧
      source.Reached (.fresh ⟨3⟩ 0) steps [source.root] ⟨6⟩ context ∧ source.Outside ⟨6⟩ ∧
      Overflowed (source.evaluate ⟨6⟩ (.fresh ⟨3⟩ 0)).1 ∧ source.blocksAround ⟨3⟩ = 1 ∧
      (List.range 6).filter (fun index => (source.bind? ⟨index⟩).isSome) = [3] := by
  have hfacts : (parse "<code>" "a: ((\"x\"))\n((a))" .empty).1.toOption.bind
      (fun source => some (source.kind source.root, source.list ⟨4, 2⟩,
        [(valueOf? (source.eval (source.stepBound (.fresh ⟨3⟩ 0)) source.root
            (.fresh ⟨3⟩ 0))).isSome,
          decide (Overflowed (source.evaluateRoot (.fresh ⟨3⟩ 0)).1),
          decide (Overflowed (source.evaluate ⟨6⟩ (.fresh ⟨3⟩ 0)).1)],
        source.blocksAround ⟨3⟩,
        (List.range 6).filter fun index => (source.bind? ⟨index⟩).isSome)) =
      some (.block ⟨4, 2⟩, [⟨3⟩, ⟨6⟩], [true, false, true], 1, [3]) := by decide +kernel
  obtain ⟨source, h, hread⟩ := exists_of_toOption_bind hfacts
  simp only [Option.some.injEq, Prod.mk.injEq, List.cons.injEq, and_true,
    decide_eq_false_iff_not, decide_eq_true_eq] at hread
  obtain ⟨hkind, hlist, ⟨hvalue, hroot, hover⟩, hblocks, hbinds⟩ := hread
  obtain ⟨value, hvalue⟩ := Option.isSome_iff_exists.mp hvalue
  obtain ⟨later, hvalue⟩ := exists_of_valueOf?_eq_some hvalue
  have hnode : ⟨6⟩ ∈ source.list ⟨4, 2⟩ := by simp [hlist]
  obtain ⟨steps, context, hreached⟩ := exists_reached_of_value hkind hnode hvalue
  exact ⟨source, steps, context, h, hroot, hreached,
    outside_of_root (wellFormed_of_parse h) hkind hnode, hover, hblocks, hbinds⟩

/-- With one more frame the statement alone does not exceed the limit. -/
theorem evaluate_direct_within_of_blocks :
    ∃ source steps context,
      (parse "<code>" "a: ((\"x\"))\n((a))" .empty).1 = .ok source ∧
      ¬ Overflowed (source.evaluateRoot (.fresh ⟨3⟩ 0)).1 ∧
      source.Reached (.fresh ⟨3⟩ 0) steps [source.root] ⟨6⟩ context ∧ source.Outside ⟨6⟩ ∧
      (∀ bind blocks, source.Borrows ⟨6⟩ ⟨6⟩ bind blocks →
        blocks ≤ source.blocksAround bind + 1) ∧
      ¬ Overflowed (source.evaluate ⟨6⟩ (.fresh ⟨3 + 1⟩ 7)).1 := by
  obtain ⟨source, steps, context, h, hroot, hreached, houtside, -, hblocks, hbinds⟩ :=
    exists_borrowing_program
  have hsource := wellFormed_of_parse h
  have hextra (bind : NodeId) (blocks : Nat) (hborrows : source.Borrows ⟨6⟩ ⟨6⟩ bind blocks) :
      blocks ≤ source.blocksAround bind + 1 := by
    have hlt : blocks + bind.index < 6 := hborrows.add_index_lt hsource
    obtain ⟨declared, hkind⟩ := hborrows.kind_eq hsource
    have hmem : bind.index ∈ (List.range 6).filter fun index => (source.bind? ⟨index⟩).isSome := by
      refine List.mem_filter.mpr ⟨List.mem_range.mpr (by omega), ?_⟩
      rw [show source.bind? ⟨bind.index⟩ = some declared from bind?_eq_some.mpr hkind]
      rfl
    rw [hbinds, List.mem_singleton] at hmem
    obtain rfl : bind = ⟨3⟩ := congrArg NodeId.mk hmem
    omega
  exact ⟨source, steps, context, h, hroot, hreached, houtside, hextra,
    evaluate_direct_within h ⟨3⟩ 0 7 hroot hreached houtside hextra⟩

/-- The limit of the whole program does not always suffice: what is read may stand in fewer blocks
than the reference. -/
theorem not_evaluate_direct_within_limit :
    ¬ ∀ (name text : String) (interner : Interner) (source : Source) (limits : Limits)
      (owner owner' steps : Nat) (live : List NodeId) (id : NodeId) (context : Context),
      (parse name text interner).1 = .ok source →
      ¬ Overflowed (source.evaluateRoot (.fresh limits owner)).1 →
      source.Reached (.fresh limits owner) steps live id context → source.Outside id →
      ¬ Overflowed (source.evaluate id (.fresh limits owner')).1 := by
  intro hsuffices
  obtain ⟨source, steps, context, h, hroot, hreached, houtside, hover, -⟩ :=
    exists_borrowing_program
  exact hsuffices _ _ _ source ⟨3⟩ 0 0 steps _ ⟨6⟩ context h hroot hreached houtside hover

end Bindery.Source
