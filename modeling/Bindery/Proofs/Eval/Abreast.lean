import Bindery.Proofs.Eval.Alike
import Bindery.Proofs.Eval.Termination

/-!
Two runs side by side. Each has a context of its own, and instances under identities of its own. The
first run finds a value for every visible bind. The second one may lack values of binds that the
first one has evaluated before: these stand in a ledger, and for each of them the second run still
owes the evaluation or holds an alike value.
-/

namespace Bindery

namespace Context

/-- The identity is none of those still to be given here. -/
def Knows (context : Context) (identity : Identity) : Prop :=
  identity.owner = context.owner → identity.serial < context.built

/-- What may change from one context to a later one. The innermost frame binds at most the nodes of
`own` and `kept` anew; the nodes of `kept` are kept on demand, and so are those of `own` where there
is no frame. -/
structure Grows (own kept : NodeId → Prop) (context later : Context) : Prop where
  callStack : later.callStack = context.callStack
  owner : later.owner = context.owner
  built : context.built ≤ later.built
  length_frames : later.frames.length = context.frames.length
  tail_frames : later.frames.tail = context.frames.tail
  head_frames : ∀ bind, ¬ own bind → ¬ kept bind →
    (later.frames.headD []).lookup bind = (context.frames.headD []).lookup bind
  demanded : ∀ bind, ¬ kept bind → (own bind → context.frames ≠ []) →
    later.demanded.lookup bind = context.demanded.lookup bind

variable {own own' kept kept' : NodeId → Prop} {context between later inner : Context}
  {bind : NodeId} {value : Value}

theorem Knows.of_grows {identity : Identity} (h : context.Knows identity)
    (hgrows : context.Grows own kept later) : later.Knows identity := fun howner =>
  Nat.lt_of_lt_of_le (h (howner.trans hgrows.owner)) hgrows.built

theorem frames_eq_nil_of_length (h : later.frames.length = context.frames.length) :
    later.frames = [] ↔ context.frames = [] := by
  rw [← List.length_eq_zero_iff, h, List.length_eq_zero_iff]

namespace Grows

theorem refl (context : Context) : context.Grows own kept context :=
  ⟨rfl, rfl, Nat.le_refl _, rfl, rfl, fun _ _ _ => rfl, fun _ _ _ => rfl⟩

theorem trans (h : context.Grows own kept between) (h' : between.Grows own kept later) :
    context.Grows own kept later where
  callStack := h'.callStack.trans h.callStack
  owner := h'.owner.trans h.owner
  built := Nat.le_trans h.built h'.built
  length_frames := h'.length_frames.trans h.length_frames
  tail_frames := h'.tail_frames.trans h.tail_frames
  head_frames bind hown hkept :=
    (h'.head_frames bind hown hkept).trans (h.head_frames bind hown hkept)
  demanded bind hkept hown :=
    (h'.demanded bind hkept fun h'' hnil =>
      hown h'' ((frames_eq_nil_of_length h.length_frames).mp hnil)).trans
      (h.demanded bind hkept hown)

theorem mono (h : context.Grows own kept later) (hown : ∀ bind, own bind → own' bind ∨ kept' bind)
    (hkept : ∀ bind, kept bind → kept' bind) : context.Grows own' kept' later where
  callStack := h.callStack
  owner := h.owner
  built := h.built
  length_frames := h.length_frames
  tail_frames := h.tail_frames
  head_frames bind hown' hkept' :=
    h.head_frames bind (fun h' => (hown bind h').elim hown' hkept') (mt (hkept bind) hkept')
  demanded bind hkept' hown' := h.demanded bind (mt (hkept bind) hkept') fun h' =>
    hown' ((hown bind h').resolve_right hkept')

theorem frames_cases (h : context.Grows own kept later) :
    context.frames = [] ∧ later.frames = [] ∨
      ∃ top top' outer, context.frames = top :: outer ∧ later.frames = top' :: outer ∧
        ∀ bind, ¬ own bind → ¬ kept bind → top'.lookup bind = top.lookup bind := by
  cases hcontext : context.frames with
  | nil => exact .inl ⟨rfl, (frames_eq_nil_of_length h.length_frames).mpr hcontext⟩
  | cons top outer =>
      cases hlater : later.frames with
      | nil =>
          have hlength := h.length_frames
          simp [hcontext, hlater] at hlength
      | cons top' outer' =>
          have htail := h.tail_frames
          have hhead := h.head_frames
          simp only [hcontext, hlater, List.tail_cons, List.headD_cons] at htail hhead
          exact .inr ⟨top, top', outer, rfl, by rw [htail], hhead⟩

/-- What is not bound anew is found as before. -/
theorem lookup?_eq (h : context.Grows own kept later) (hown : ¬ own bind) (hkept : ¬ kept bind) :
    later.lookup? bind = context.lookup? bind := by
  simp only [lookup?, h.demanded bind hkept fun h' => absurd h' hown]
  rcases h.frames_cases with ⟨hnil, hnil'⟩ | ⟨top, top', outer, hframes, hframes', hlookup⟩
  · rw [hnil, hnil']
  · rw [hframes, hframes', List.findSome?_cons, List.findSome?_cons, hlookup bind hown hkept]

/-- No frame changes in what it has for a node that is not bound anew. -/
theorem lookup_of_mem (h : context.Grows own kept later) (hown : ¬ own bind) (hkept : ¬ kept bind)
    {frame : Frame} (hframe : frame ∈ later.frames) :
    ∃ frame' ∈ context.frames, frame.lookup bind = frame'.lookup bind := by
  rcases h.frames_cases with ⟨-, hnil⟩ | ⟨top, top', outer, hframes, hframes', hlookup⟩
  · rw [hnil] at hframe
    cases hframe
  · rw [hframes'] at hframe
    rw [hframes]
    rcases List.mem_cons.mp hframe with rfl | hframe
    · exact ⟨top, List.mem_cons_self, hlookup bind hown hkept⟩
    · exact ⟨frame, List.mem_cons_of_mem _ hframe, rfl⟩

/-- A node that no frame had a value for is found in the frame on top, if in any. -/
theorem eq_of_lookup? (h : context.Grows own kept later)
    (hnone : ∀ frame ∈ context.frames, frame.lookup bind = none)
    (hfound : later.lookup? bind = some value) {frame : Frame} (hframe : frame ∈ later.frames)
    {value' : Value} (hvalue' : frame.lookup bind = some value') : value' = value := by
  rcases h.frames_cases with ⟨-, hnil⟩ | ⟨top, top', outer, hframes, hframes', -⟩
  · rw [hnil] at hframe
    cases hframe
  · rw [hframes'] at hframe
    rcases List.mem_cons.mp hframe with rfl | hframe
    · rw [lookup?, hframes', List.findSome?_cons, hvalue'] at hfound
      exact Option.some.inj hfound
    · rw [hnone frame (hframes ▸ List.mem_cons_of_mem _ hframe)] at hvalue'
      cases hvalue'

/-- Whatever is bound in a frame is gone when it is left. -/
theorem leave {frame : CallFrame} (henter : context.enter frame = .ok inner)
    (h : inner.Grows own kept later) : context.Grows (fun _ => False) kept later.leave := by
  obtain ⟨-, rfl⟩ := enter_eq_ok.mp henter
  have hframes : later.leave.frames = context.frames := h.tail_frames
  refine ⟨?_, h.owner, h.built, congrArg List.length hframes, congrArg List.tail hframes,
    fun bind _ _ => by rw [hframes], fun bind hkept _ => ?_⟩
  · simp only [Context.leave, CallStack.pop, h.callStack, List.tail_cons]
  · exact h.demanded bind hkept fun _ => List.cons_ne_nil _ _

theorem record (hown : own bind) : context.Grows own kept (context.record bind value) := by
  have hne {key : NodeId} (hkey : ¬ own key) : (key == bind) = false :=
    beq_false_of_ne fun heq => hkey (heq ▸ hown)
  simp only [Context.record]
  split
  · rename_i hnil
    refine ⟨rfl, rfl, Nat.le_refl _, rfl, rfl, fun _ _ _ => rfl, fun key _ hkey => ?_⟩
    have hkey' : ¬ own key := fun h => hkey h hnil
    simp only [keep, List.lookup_cons, hne hkey']
  · rename_i top outer hframes
    refine ⟨rfl, rfl, Nat.le_refl _, by rw [hframes]; rfl, by rw [hframes]; rfl,
      fun key hkey _ => ?_, fun _ _ _ => rfl⟩
    rw [hframes]
    simp only [List.headD_cons, List.lookup_cons, hne hkey]

theorem keep (hkept : kept bind) : context.Grows own kept (context.keep bind value) := by
  refine ⟨rfl, rfl, Nat.le_refl _, rfl, rfl, fun _ _ _ => rfl, fun key hkey _ => ?_⟩
  have hne : (key == bind) = false := beq_false_of_ne fun heq => hkey (heq ▸ hkept)
  simp only [Context.keep, List.lookup_cons, hne]

theorem build : context.Grows own kept { context with built := context.built + 1 } :=
  ⟨rfl, rfl, Nat.le_succ _, rfl, rfl, fun _ _ _ => rfl, fun _ _ _ => rfl⟩

end Grows

theorem lookup?_record : (context.record bind value).lookup? bind = some value := by
  simp only [record]
  split
  · rename_i hnil
    simp [lookup?, keep, hnil]
  · simp [lookup?]

end Context

/-- Whatever a step comes to, it has left all but the innermost frame alone. -/
theorem Step.congruence_grows : FullCongruence fun _ context step _ => ∀ later,
    (step context).context? = some later →
      context.Grows (fun _ => True) (fun _ => True) later where
  pure context _ := by rintro later ⟨⟩; exact .refl context
  fail context _ := by rintro later ⟨⟩; exact .refl context
  record context bind value := by rintro later ⟨⟩; exact .record trivial
  lookup? context _ := by rintro later ⟨⟩; exact .refl context
  keep context bind value := by rintro later ⟨⟩; exact .keep trivial
  build context _ _ _ := by rintro later ⟨⟩; exact .build
  bind {α β context first first' next next'} hfirst hnext := by
    intro later hlater
    rw [bind_apply] at hlater
    cases h : first context with
    | value result between =>
        rw [h] at hlater
        exact (hfirst between (by rw [h]; rfl)).trans (hnext result between h later hlater)
    | error failure between =>
        rw [h] at hlater
        cases hlater
        exact hfirst later (by rw [h]; rfl)
    | unfinished =>
        rw [h] at hlater
        cases hlater
  inFrame {α context frame} interner {step step'} hstep := by
    intro later hlater
    simp only [Step.inFrame] at hlater
    cases henter : context.enter frame with
    | error failure =>
        rw [henter] at hlater
        cases hlater
        exact .refl context
    | ok inner =>
        rw [henter] at hlater
        cases h : step inner with
        | value result between | error failure between =>
            simp only [h] at hlater
            cases hlater
            exact (Context.Grows.leave henter (hstep inner henter between (by rw [h]; rfl))).mono
              (fun _ h => h.elim) fun _ h => h
        | unfinished =>
            simp only [h] at hlater
            cases hlater

theorem Source.eval_grows {source : Source} (steps : Nat) (id : NodeId) (context later : Context)
    (hlater : (source.eval steps id context).context? = some later) :
    context.Grows (fun _ => True) (fun _ => True) later := by
  induction steps generalizing id context later with
  | zero => cases hlater
  | succ steps ih =>
      rw [eval, Step.context?_located] at hlater
      exact @evalKind_congr_of_calls source _ Step.congruence_grows (source.eval steps)
        (source.eval steps) id context (fun _ node later _ => ih node later) later hlater

/-- The pairs of which the first identity is known in a context. -/
def Pairing.before (pairing : Pairing) (context : Context) : Pairing := fun i i' =>
  pairing i i' ∧ context.Knows i

/-- A bind that the first run has evaluated, from one context to another. -/
structure Line where
  bind : NodeId
  value : Value
  steps : Nat
  start : Context
  finish : Context

namespace Line

/-- The evaluation gave the identity to an instance. -/
def Creates (line : Line) (identity : Identity) : Prop :=
  line.finish.Knows identity ∧ ¬ line.start.Knows identity

/-- How the second run stands with a bind that the first run has evaluated. -/
inductive Settled (line : Line) (pairing : Pairing) (context' : Context) : Prop
  /-- Nothing holds the bind, and nothing that was built for it is paired. -/
  | due : (∀ frame ∈ context'.frames, frame.lookup line.bind = none) →
      context'.demanded.lookup line.bind = none →
      (∀ i i', pairing i i' → ¬ line.Creates i) → Settled line pairing context'
  /-- An alike value is kept, and no frame holds another one. -/
  | paid {value' : Value} : context'.demanded.lookup line.bind = some value' →
      (∀ frame ∈ context'.frames, ∀ value, frame.lookup line.bind = some value → value = value') →
      line.value.Alike (pairing.before line.finish) value' → Settled line pairing context'

end Line

/-- The bind stands in the ledger. -/
def Booked (ledger : List Line) (bind : NodeId) : Prop := ∃ line ∈ ledger, line.bind = bind

/-- How two runs are compared. A lax comparison looks neither at the call stacks nor at runs that
exceed their limit; otherwise the call stacks differ only in the frames below. -/
structure Comparison where
  lax : Prop
  below : List CallFrame
  below' : List CallFrame
  length_below : below.length = below'.length

namespace Comparison

def Stacks (comparison : Comparison) (stack stack' : CallStack) : Prop :=
  comparison.lax ∨ stack.maxDepth = stack'.maxDepth ∧
    ∃ pushed, stack.frames = pushed ++ comparison.below ∧
      stack'.frames = pushed ++ comparison.below'

def Traces (comparison : Comparison) (interner : Interner) (trace trace' : Option Backtrace) :
    Prop :=
  comparison.lax ∨ ∃ pushed : Option Backtrace,
    trace = pushed.map (· ++ comparison.below.map (·.toBacktraceFrame interner)) ∧
      trace' = pushed.map (· ++ comparison.below'.map (·.toBacktraceFrame interner))

variable {comparison : Comparison} {stack stack' : CallStack} {error error' : EvalError}

theorem Stacks.push (h : comparison.Stacks stack stack') (frame : CallFrame) :
    comparison.Stacks { stack with frames := frame :: stack.frames }
      { stack' with frames := frame :: stack'.frames } := by
  rcases h with hlax | ⟨hmax, pushed, hframes, hframes'⟩
  · exact .inl hlax
  · exact .inr ⟨hmax, frame :: pushed, congrArg (frame :: ·) hframes,
      congrArg (frame :: ·) hframes'⟩

theorem Stacks.depth_eq (h : comparison.Stacks stack stack') :
    comparison.lax ∨ stack.maxDepth = stack'.maxDepth ∧ stack.depth = stack'.depth := by
  rcases h with hlax | ⟨hmax, pushed, hframes, hframes'⟩
  · exact .inl hlax
  · refine .inr ⟨hmax, ?_⟩
    simp only [CallStack.depth, hframes, hframes', List.length_append, comparison.length_below]

theorem Stacks.isEmpty_eq (h : comparison.Stacks stack stack') :
    comparison.lax ∨ stack.isEmpty = stack'.isEmpty := by
  refine h.depth_eq.imp id fun hdepth => ?_
  have hlength : stack.frames.length = stack'.frames.length := hdepth.2
  rw [CallStack.isEmpty, CallStack.isEmpty, Bool.eq_iff_iff, List.isEmpty_iff, List.isEmpty_iff,
    ← List.length_eq_zero_iff, ← List.length_eq_zero_iff, hlength]

/-- Errors that agree in their backtraces still do so when they are given one. -/
theorem Stacks.attach (h : comparison.Stacks stack stack') {interner : Interner}
    (htraces : comparison.Traces interner error.backtrace error'.backtrace) :
    comparison.Traces interner (stack.attach error interner).backtrace
      (stack'.attach error' interner).backtrace := by
  rcases h.isEmpty_eq with hlax | hempty
  · exact .inl hlax
  rcases h with hlax | ⟨-, pushed, hframes, hframes'⟩
  · exact .inl hlax
  rcases htraces with hlax | ⟨trace, htrace, htrace'⟩
  · exact .inl hlax
  have hsome : error'.backtrace.isSome = error.backtrace.isSome := by
    rw [htrace, htrace', Option.isSome_map, Option.isSome_map]
  simp only [CallStack.attach, hempty, hsome]
  split
  · exact .inr ⟨trace, htrace, htrace'⟩
  · refine .inr ⟨some (pushed.map (·.toBacktraceFrame interner)), ?_, ?_⟩
    · simp only [CallStack.capture, hframes, List.map_append, Option.map_some]
    · simp only [CallStack.capture, hframes', List.map_append, Option.map_some]

end Comparison

/-- Where two runs stand when they have come equally far. -/
structure Abreast (comparison : Comparison) (ledger : List Line) (pairing : Pairing)
    (context context' : Context) : Prop where
  oneToOne : pairing.OneToOne
  known : ∀ i i', pairing i i' → context.Knows i ∧ context'.Knows i'
  callStacks : comparison.Stacks context.callStack context'.callStack
  settled : ∀ line ∈ ledger, line.Settled pairing context'
  past : ∀ line ∈ ledger, line.finish.owner = context.owner ∧ line.finish.built ≤ context.built

/-- What two runs have done between two points where they are abreast. The first one binds nothing
but nodes of `own`; the second one may settle lines of the ledger besides. -/
structure Progress (ledger : List Line) (own : NodeId → Prop) (pairing : Pairing)
    (context context' : Context) (pairing' : Pairing) (later later' : Context) : Prop where
  le : ∀ i i', pairing i i' → pairing' i i'
  fresh : ∀ i i', pairing' i i' → pairing i i' ∨ ¬ context'.Knows i'
  left : context.Grows own (fun _ => False) later
  right : context'.Grows own (Booked ledger) later'

/-- The first run finds a value for every bind that is defined. The second one finds an alike value,
unless the bind stands in the ledger with that value. -/
def Shares (ledger : List Line) (pairing : Pairing) (definitions : List Definition)
    (context context' : Context) : Prop :=
  ∀ bind, .bind bind ∈ definitions → ∃ value, context.lookup? bind = some value ∧
    ((∃ line ∈ ledger, line.bind = bind ∧ line.value = value) ∨
      ¬ Booked ledger bind ∧ ∃ value', context'.lookup? bind = some value' ∧
        value.Alike pairing value')

namespace Line.Settled

variable {line : Line} {pairing pairing' : Pairing} {context context' later later' : Context}

/-- A line stays as it is while its bind is not bound anew and nothing that was built for it is
paired. -/
theorem of_grows {own kept : NodeId → Prop} (h : line.Settled pairing context')
    (hgrows : context'.Grows own kept later') (hown : ¬ own line.bind) (hkept : ¬ kept line.bind)
    (hle : ∀ i i', pairing i i' → pairing' i i')
    (hcreates : ∀ i i', pairing' i i' → ¬ pairing i i' → ¬ line.Creates i) :
    line.Settled pairing' later' := by
  have hdemanded := hgrows.demanded line.bind hkept fun h => absurd h hown
  cases h with
  | due hframes hnone hmissed =>
      refine .due (fun frame hframe => ?_) (hdemanded.trans hnone) fun i i' hi => ?_
      · obtain ⟨frame', hmem, heq⟩ := hgrows.lookup_of_mem hown hkept hframe
        exact heq.trans (hframes frame' hmem)
      · by_cases hold : pairing i i'
        · exact hmissed i i' hold
        · exact hcreates i i' hi hold
  | paid hkeep hframes halike =>
      refine .paid (hdemanded.trans hkeep) (fun frame hframe value hvalue => ?_)
        (halike.mono fun i i' hi => ⟨hle i i' hi.1, hi.2⟩)
      obtain ⟨frame', hmem, heq⟩ := hgrows.lookup_of_mem hown hkept hframe
      exact hframes frame' hmem value (heq.symm.trans hvalue)

theorem enter {frame : CallFrame} (h : line.Settled pairing context)
    (henter : context.enter frame = .ok later) : line.Settled pairing later := by
  obtain ⟨-, rfl⟩ := Context.enter_eq_ok.mp henter
  cases h with
  | due hframes hnone hmissed =>
      refine .due (fun frame hframe => ?_) hnone hmissed
      rcases List.mem_cons.mp hframe with rfl | hframe
      · rfl
      · exact hframes frame hframe
  | paid hkeep hframes halike =>
      refine .paid hkeep (fun frame hframe value hvalue => ?_) halike
      rcases List.mem_cons.mp hframe with rfl | hframe
      · cases hvalue
      · exact hframes frame hframe value hvalue

theorem leave (h : line.Settled pairing context) : line.Settled pairing context.leave := by
  cases h with
  | due hframes hnone hmissed =>
      exact .due (fun frame hframe => hframes frame (List.mem_of_mem_tail hframe)) hnone hmissed
  | paid hkeep hframes halike =>
      exact .paid hkeep (fun frame hframe => hframes frame (List.mem_of_mem_tail hframe)) halike

/-- What is due is found nowhere, and what has been paid is found. -/
theorem lookup?_cases (h : line.Settled pairing context) :
    context.lookup? line.bind = none ∨
      ∃ value', context.lookup? line.bind = some value' ∧ line.value.Alike pairing value' := by
  cases h with
  | due hframes hnone _ =>
      refine .inl ?_
      simp only [Context.lookup?, List.findSome?_eq_none_iff.mpr hframes, hnone, Option.or_none]
  | @paid value' hkeep hframes halike =>
      refine .inr ⟨value', ?_, halike.mono fun _ _ hi => hi.1⟩
      simp only [Context.lookup?]
      cases hfound : context.frames.findSome? (·.lookup line.bind) with
      | none => rw [Option.none_or, hkeep]
      | some value =>
          obtain ⟨frame, hframe, hvalue⟩ := List.exists_of_findSome?_eq_some hfound
          rw [Option.some_or, hframes frame hframe value hvalue]

end Line.Settled

section

variable {comparison : Comparison} {ledger : List Line} {own own' : NodeId → Prop}
  {pairing pairing' pairing'' : Pairing}
  {context context' between between' later later' inner inner' : Context}

namespace Progress

theorem refl : Progress ledger own pairing context context' pairing context context' :=
  ⟨fun _ _ h => h, fun _ _ h => .inl h, .refl context, .refl context'⟩

theorem trans (h : Progress ledger own pairing context context' pairing' between between')
    (h' : Progress ledger own pairing' between between' pairing'' later later') :
    Progress ledger own pairing context context' pairing'' later later' where
  le i i' hi := h'.le i i' (h.le i i' hi)
  fresh i i' hi := by
    rcases h'.fresh i i' hi with hi | hi
    · exact h.fresh i i' hi
    · exact .inr fun hknown => hi (hknown.of_grows h.right)
  left := h.left.trans h'.left
  right := h.right.trans h'.right

theorem mono (h : Progress ledger own pairing context context' pairing' later later')
    (hown : ∀ bind, own bind → own' bind) :
    Progress ledger own' pairing context context' pairing' later later' :=
  ⟨h.le, h.fresh, h.left.mono (fun bind h => .inl (hown bind h)) fun _ h => h,
    h.right.mono (fun bind h => .inl (hown bind h)) fun _ h => h⟩

theorem leave {frame : CallFrame} (henter : context.enter frame = .ok inner)
    (henter' : context'.enter frame = .ok inner')
    (h : Progress ledger own pairing inner inner' pairing' later later') :
    Progress ledger (fun _ => False) pairing context context' pairing'
      later.leave later'.leave := by
  refine ⟨h.le, fun i i' hi => (h.fresh i i' hi).imp id fun hnot hknown => hnot ?_,
    .leave henter h.left, .leave henter' h.right⟩
  obtain ⟨-, rfl⟩ := Context.enter_eq_ok.mp henter'
  exact hknown

end Progress

namespace Abreast

/-- An identity that is to be given next in each run may be paired. -/
theorem build (own : NodeId → Prop) (h : Abreast comparison ledger pairing context context') :
    let pairing' : Pairing := fun i i' =>
      pairing i i' ∨ i = context.nextIdentity ∧ i' = context'.nextIdentity
    Progress ledger own pairing context context' pairing'
        { context with built := context.built + 1 }
        { context' with built := context'.built + 1 } ∧
    Abreast comparison ledger pairing' { context with built := context.built + 1 }
      { context' with built := context'.built + 1 } := by
  have hnew (context : Context) : ¬ context.Knows context.nextIdentity := fun hknown =>
    Nat.lt_irrefl _ (hknown rfl)
  have hknows (context : Context) (i : Identity) (hi : context.Knows i) :
      Context.Knows { context with built := context.built + 1 } i := fun howner =>
    Nat.lt_succ_of_lt (hi howner)
  refine ⟨⟨fun _ _ hi => .inl hi, fun i i' hi => hi.imp id fun hi => ?_, .build, .build⟩, ⟨?_, ?_⟩,
    ?_, h.callStacks, fun line hline => ?_, fun line hline => ?_⟩
  · rw [hi.2]
    exact hnew context'
  · rintro i j j' (hi | ⟨rfl, rfl⟩) (hi' | ⟨hi', rfl⟩)
    · exact h.oneToOne.right_unique hi hi'
    · exact absurd (hi' ▸ (h.known _ _ hi).1) (hnew context)
    · exact absurd (h.known _ _ hi').1 (hnew context)
    · rfl
  · rintro i i' j (hi | ⟨rfl, rfl⟩) (hi' | ⟨rfl, hi'⟩)
    · exact h.oneToOne.left_unique hi hi'
    · exact absurd (hi' ▸ (h.known _ _ hi).2) (hnew context')
    · exact absurd (h.known _ _ hi').2 (hnew context')
    · rfl
  · rintro i i' (hi | ⟨rfl, rfl⟩)
    · exact ⟨hknows _ _ (h.known i i' hi).1, hknows _ _ (h.known i i' hi).2⟩
    · exact ⟨fun _ => Nat.lt_succ_self _, fun _ => Nat.lt_succ_self _⟩
  · have hgrows : context'.Grows (fun _ => False) (fun _ => False) _ := .build
    refine (h.settled line hline).of_grows hgrows (fun h => h) (fun h => h) (fun _ _ hi => .inl hi)
      fun i i' hi hnot hcreates => ?_
    rcases hi with hi | ⟨rfl, -⟩
    · exact hnot hi
    · -- Whatever is in the ledger was over before.
      have hpast := h.past line hline
      have := hcreates.1 hpast.1.symm
      exact absurd hpast.2 (Nat.not_le.mpr this)
  · exact ⟨(h.past line hline).1, Nat.le_succ_of_le (h.past line hline).2⟩

theorem enter {frame : CallFrame} (h : Abreast comparison ledger pairing context context')
    (henter : context.enter frame = .ok inner) (henter' : context'.enter frame = .ok inner') :
    Abreast comparison ledger pairing inner inner' := by
  refine ⟨h.oneToOne, fun i i' hi => ?_, ?_,
    fun line hline => (h.settled line hline).enter henter', fun line hline => ?_⟩
  all_goals
    obtain ⟨-, rfl⟩ := Context.enter_eq_ok.mp henter
    obtain ⟨-, rfl⟩ := Context.enter_eq_ok.mp henter'
  · exact h.known i i' hi
  · exact h.callStacks.push frame
  · exact h.past line hline

theorem leave (h : Abreast comparison ledger pairing' later later')
    (hstacks : comparison.Stacks later.leave.callStack later'.leave.callStack) :
    Abreast comparison ledger pairing' later.leave later'.leave :=
  ⟨h.oneToOne, h.known, hstacks, fun line hline => (h.settled line hline).leave, h.past⟩

theorem record {bind : NodeId} {value value' : Value}
    (h : Abreast comparison ledger pairing context context') (hbind : ¬ Booked ledger bind) :
    Abreast comparison ledger pairing (context.record bind value)
      (context'.record bind value') := by
  have hgrows (context : Context) (value : Value) :
      context.Grows (· = bind) (fun _ => False) (context.record bind value) := .record rfl
  refine ⟨h.oneToOne, fun i i' hi => ?_, ?_, fun line hline => ?_, fun line hline => ?_⟩
  · exact ⟨(h.known i i' hi).1.of_grows (hgrows context value),
      (h.known i i' hi).2.of_grows (hgrows context' value')⟩
  · rw [(hgrows context value).callStack, (hgrows context' value').callStack]
    exact h.callStacks
  · exact (h.settled line hline).of_grows (hgrows context' value')
      (fun heq => hbind ⟨line, hline, heq⟩) (fun h => h) (fun _ _ hi => hi)
      fun _ _ hi hnot => absurd hi hnot
  · rw [(hgrows context value).owner]
    exact ⟨(h.past line hline).1, Nat.le_trans (h.past line hline).2 (hgrows context value).built⟩

end Abreast

namespace Shares

variable {definitions definitions' : List Definition}

theorem progress (h : Shares ledger pairing definitions context context')
    (hprogress : Progress ledger own pairing context context' pairing' later later')
    (hown : ∀ bind, .bind bind ∈ definitions → ¬ own bind) :
    Shares ledger pairing' definitions later later' := by
  intro bind hbind
  obtain ⟨value, hvalue, hsecond⟩ := h bind hbind
  refine ⟨value, (hprogress.left.lookup?_eq (hown bind hbind) fun h => h).trans hvalue,
    hsecond.imp id fun ⟨hnot, value', hvalue', halike⟩ => ?_⟩
  exact ⟨hnot, value', (hprogress.right.lookup?_eq (hown bind hbind) hnot).trans hvalue',
    halike.mono hprogress.le⟩

theorem append (h : Shares ledger pairing definitions context context')
    (h' : Shares ledger pairing definitions' context context') :
    Shares ledger pairing (definitions ++ definitions') context context' := fun bind hbind =>
  (List.mem_append.mp hbind).elim (h bind) (h' bind)

theorem enter {frame : CallFrame} (h : Shares ledger pairing definitions context context')
    (henter : context.enter frame = .ok inner) (henter' : context'.enter frame = .ok inner') :
    Shares ledger pairing definitions inner inner' := by
  obtain ⟨-, rfl⟩ := Context.enter_eq_ok.mp henter
  obtain ⟨-, rfl⟩ := Context.enter_eq_ok.mp henter'
  exact h

end Shares
end
end Bindery
