import Bindery.Proofs.Eval.Frames

/-!
Evaluation in frames comes to the same as evaluation by lexical scope. Where the frames match the
list of names, every node evaluates to the same value or fails in the same way, and leaves frames
that match the list from which the next node is evaluated.
-/

namespace Bindery
namespace Lexical

/-- A step has come to what a run has come to, the results being as `ok` tells together with the
frames that the step leaves. Of an error the backtrace does not count. -/
def Simulates {α β : Type} (base : Context) (ok : α → β → List Frame → Prop)
    (outcome : Outcome α) : Option (Except PlacedFault β × Nat) → Prop
  | none => outcome = .unfinished
  | some (.ok result, built) =>
    ∃ value frames, outcome = .value value (base.at frames built) ∧ ok value result frames
  | some (.error failure, built) =>
    ∃ error frames, outcome = .error error (base.at frames built) ∧
      error.fault = failure.fault ∧ error.span = failure.span

namespace Simulates

variable {α β γ δ : Type} {base : Context} {ok : α → β → List Frame → Prop}
  {frames : List Frame} {built : Nat}

theorem pure {value : α} {result : β} (h : ok value result frames) :
    Simulates base ok ((Pure.pure value : Step α) (base.at frames built))
      ((Pure.pure result : Run β) built) :=
  ⟨value, frames, rfl, h⟩

theorem fail (fault : Fault) :
    Simulates base ok ((Step.fail fault : Step α) (base.at frames built))
      ((Run.fail fault : Run β) built) :=
  ⟨_, frames, rfl, rfl, rfl⟩

theorem bind {ok' : γ → δ → List Frame → Prop} {first : Step α} {next : α → Step γ}
    {run : Run β} {after : β → Run δ}
    (hfirst : Simulates base ok (first (base.at frames built)) (run built))
    (hnext : ∀ value result frames built, ok value result frames →
      Simulates base ok' (next value (base.at frames built)) (after result built)) :
    Simulates base ok' ((first >>= next) (base.at frames built)) ((run >>= after) built) := by
  rw [Run.bind_apply, Step.bind_apply]
  cases h : run built with
  | none =>
      rw [h] at hfirst
      rw [show first (base.at frames built) = .unfinished from hfirst]
      rfl
  | some outcome =>
      obtain ⟨outcome, later⟩ := outcome
      rw [h] at hfirst
      cases outcome with
      | ok result =>
          obtain ⟨value, frames', heq, hok⟩ := hfirst
          rw [heq]
          exact hnext value result frames' later hok
      | error failure =>
          obtain ⟨error, frames', heq, hfault, hspan⟩ := hfirst
          rw [heq]
          exact ⟨error, frames', rfl, hfault, hspan⟩

theorem ofExcept {result : Except Fault α} {ok : α → α → List Frame → Prop}
    (h : ∀ value, result = .ok value → ok value value frames) :
    Simulates base ok (Step.ofExcept result (base.at frames built))
      (Run.ofExcept result built) := by
  cases result with
  | ok value => exact .pure (h value rfl)
  | error fault => exact .fail fault

theorem ite {c : Prop} [Decidable c] {step step' : Step α} {run run' : Run β}
    (h : c → Simulates base ok (step (base.at frames built)) (run built))
    (h' : ¬ c → Simulates base ok (step' (base.at frames built)) (run' built)) :
    Simulates base ok ((if c then step else step') (base.at frames built))
      ((if c then run else run') built) := by
  by_cases hc : c
  · rw [if_pos hc, if_pos hc]
    exact h hc
  · rw [if_neg hc, if_neg hc]
    exact h' hc

theorem weaken {ok' : α → β → List Frame → Prop} {outcome : Outcome α}
    {run : Option (Except PlacedFault β × Nat)} (h : Simulates base ok outcome run)
    (hok : ∀ value result frames, ok value result frames → ok' value result frames) :
    Simulates base ok' outcome run := by
  cases run with
  | none => exact h
  | some outcome' =>
      obtain ⟨result, built'⟩ := outcome'
      cases result with
      | ok result =>
          obtain ⟨value, frames', heq, hresult⟩ := h
          exact ⟨value, frames', heq, hok value result frames' hresult⟩
      | error failure => exact h

theorem located {interner : Interner} {span : Span} {step : Step α} {run : Run β}
    (h : Simulates base ok (step (base.at frames built)) (run built)) :
    Simulates base ok (Step.located interner span step (base.at frames built))
      (Run.located span run built) := by
  rw [Run.located_apply, Step.located]
  cases hrun : run built with
  | none =>
      rw [hrun] at h
      rw [show step (base.at frames built) = .unfinished from h]
      rfl
  | some outcome =>
      obtain ⟨outcome, later⟩ := outcome
      rw [hrun] at h
      cases outcome with
      | ok result =>
          obtain ⟨value, frames', heq, hok⟩ := h
          rw [heq]
          exact ⟨value, frames', rfl, hok⟩
      | error failure =>
          obtain ⟨error, frames', heq, hfault, hspan⟩ := h
          rw [heq]
          refine ⟨_, frames', rfl, ?_⟩
          simp only [CallStack.attach]
          split <;> simp only [EvalError.orSpan, hfault, hspan, and_self]

theorem record {top : Frame} {outer : List Frame} {id : NodeId} {value : Value} {next : Step α}
    {run : Option (Except PlacedFault β × Nat)}
    (h : Simulates base ok (next (base.at (((id, value) :: top) :: outer) built)) run) :
    Simulates base ok ((do Step.record id value; next) (base.at (top :: outer) built)) run := h

/-- A frame is entered exactly if one more block or construction may be run. -/
theorem inFrame {program : Program} (hlimit : program.limit = base.maxDepth) {interner : Interner}
    {frame : CallFrame} {step : Step α} {run : Run β}
    (h : Simulates (base.pushed frame) (fun value result frames' => ok value result frames'.tail)
      (step ((base.pushed frame).at ([] :: frames) built)) (run built)) :
    Simulates base ok (Step.inFrame interner frame step (base.at frames built))
      (program.entered base.depth run built) := by
  rw [Step.inFrame, Program.entered, Context.enter_at, hlimit]
  by_cases hlt : base.depth < base.maxDepth
  · rw [if_pos hlt, if_pos hlt]
    cases hrun : run built with
    | none =>
        rw [hrun] at h
        simp only [show step _ = .unfinished from h]
        rfl
    | some outcome =>
        obtain ⟨outcome, later⟩ := outcome
        rw [hrun] at h
        cases outcome with
        | ok result =>
            obtain ⟨value, frames', heq, hok⟩ := h
            simp only [heq]
            exact ⟨value, frames'.tail, rfl, hok⟩
        | error failure =>
            obtain ⟨error, frames', heq, hfault, hspan⟩ := h
            simp only [heq]
            refine ⟨_, frames'.tail, rfl, ?_⟩
            simp only [CallStack.attach]
            split <;> exact ⟨hfault, hspan⟩
  · rw [if_neg hlt, if_neg hlt]
    exact ⟨_, frames, rfl, rfl, rfl⟩

end Simulates
end Lexical


namespace Source
open Lexical

variable {source : Source} {program : Program}

/-- Two evaluators of single nodes agree wherever the frames match the list of names. -/
def Agrees (source : Source) (program : Program) (recur : NodeId → Step Value)
    (recur' : (live : Nat) → Scope → NodeId → Run Value) : Prop :=
  ∀ base frames built scope id, source.program base = program →
    Place.statement.admits (source.kind id).shape = true →
    (∀ bind, source.kind id = .bind bind → frames ≠ []) →
    source.Matches frames (source.visible id) scope →
    Simulates base
      (fun value result frames' => value = result ∧ frames' = source.recorded id value frames)
      (recur id (base.at frames built)) (recur' base.depth scope id built)

theorem runBody_cons (recur : NodeId → Step Value) (base : Context) (id : NodeId)
    (rest : List NodeId) (properties : Properties) :
    source.runBody recur (id :: rest) properties =
      (do
        let value ← recur id
        source.runBody recur rest ((source.program base).kept id value properties)) := by
  have hkind : (source.program base).kind id = source.kind id := rfl
  simp only [runBody, Program.kept, bind?, hkind]
  cases source.kind id <;> rfl

namespace Agrees

variable {recur : NodeId → Step Value} {recur' : (live : Nat) → Scope → NodeId → Run Value}
  (h : source.Agrees program recur recur') {base : Context} (hbase : source.program base = program)
  {definitions : List Definition} {scope : Scope} {built : Nat}
include h hbase

theorem expression {frames : List Frame} {id : NodeId}
    (hplace : Place.expression.admits (source.kind id).shape = true)
    (hmatches : source.Matches frames (source.visible id) scope) :
    Simulates base (fun value result frames' => value = result ∧ frames' = frames)
      (recur id (base.at frames built)) (recur' base.depth scope id built) := by
  have hbind := NodeKind.ne_bind_of_expression hplace
  have hstatement := Place.statement_of_expression hplace
  refine (h base frames built scope id hbase hstatement
    (fun bind hkind => absurd hkind (hbind bind)) hmatches).weaken
      fun value result frames' hok => ⟨hok.1, ?_⟩
  rw [hok.2, recorded_eq_self hbind]

theorem evalStatements (hsource : source.WellFormed) {top : Frame} {outer : List Frame}
    {ids : List NodeId} {last : Value} (halong : source.Along .statement definitions ids)
    (hmatches : source.Matches (top :: outer) definitions scope) :
    Simulates base
      (fun value result frames => value = result ∧
        ∃ scope, source.Advanced definitions ids top outer frames scope)
      (evalSequence recur last ids (base.at (top :: outer) built))
      (program.evalStatements (recur' base.depth) scope last ids built) := by
  induction ids generalizing definitions scope built last top with
  | nil => exact .pure ⟨rfl, scope, .nil hmatches⟩
  | cons id rest ih =>
      have hhead := halong.head
      rw [← hhead] at hmatches
      have hfirst := h base (top :: outer) built scope id hbase
        (halong.admits id List.mem_cons_self) (fun _ _ => List.cons_ne_nil _ _) hmatches
      refine hfirst.bind fun value result frames built hok => ?_
      obtain ⟨rfl, rfl⟩ := hok
      have hstep := hmatches.step hsource base value
      rw [hbase, hhead] at hstep
      refine (ih halong.tail hstep).weaken fun value' result' frames' hok => ?_
      obtain ⟨rfl, scope', hadvanced⟩ := hok
      exact ⟨rfl, scope', hadvanced.cons⟩

theorem evalEach {frames : List Frame} {ids : List NodeId}
    (hvisible : ∀ id ∈ ids, source.visible id = definitions)
    (hplace : ∀ id ∈ ids, Place.expression.admits (source.kind id).shape = true)
    (hmatches : source.Matches frames definitions scope) :
    Simulates base (fun values results frames' => values = results ∧ frames' = frames)
      (Source.evalEach recur ids (base.at frames built))
      (Program.evalEach (recur' base.depth) scope ids built) := by
  induction ids generalizing built with
  | nil => exact .pure ⟨rfl, rfl⟩
  | cons id rest ih =>
      have hid := List.mem_cons_self (a := id) (l := rest)
      have hhead : source.Matches frames (source.visible id) scope := hvisible id hid ▸ hmatches
      refine (h.expression hbase (hplace id hid) hhead).bind
        fun value result frames' built hok => ?_
      obtain ⟨rfl, rfl⟩ := hok
      refine (ih (fun id hid => hvisible id (List.mem_cons_of_mem _ hid)) fun id hid =>
        hplace id (List.mem_cons_of_mem _ hid)).bind fun values results frames'' built hok => ?_
      obtain ⟨rfl, rfl⟩ := hok
      exact .pure ⟨rfl, rfl⟩

omit h in
theorem checkType {frames : List Frame} (type : Option DeclaredType) (value : Value) :
    Simulates base (fun _ _ frames' => frames' = frames)
      (source.checkType type value (base.at frames built))
      (program.checkType type value built) := by
  subst hbase
  cases type with
  | none => exact .pure rfl
  | some type =>
      simp only [Source.checkType, Program.checkType]
      split
      · exact .pure rfl
      · exact .fail _

theorem inputValue (hsource : source.WellFormed) {frames : List Frame} {structureName : Name}
    {input : NodeId} {bind : BindNode} {arguments : List Value}
    (hkind : source.kind input = .bind bind)
    (hmatches : source.Matches frames (source.visible input) scope) :
    Simulates base (fun value result frames' => value = result ∧ frames' = frames)
      (source.inputValue recur structureName bind arguments (base.at frames built))
      (program.inputValue (recur' base.depth) scope structureName bind arguments built) := by
  cases arguments with
  | cons argument arguments => exact .pure ⟨rfl, rfl⟩
  | nil =>
      simp only [Source.inputValue, Program.inputValue]
      cases hvalue : bind.value with
      | none =>
          subst hbase
          exact .fail _
      | some node =>
          have hplaced : (Place.expression, node) ∈
              source.arena.placements (source.kind input) := by
            simp [hkind, Arena.placements, hvalue]
          refine h.expression hbase (hsource.admits_of_placed hplaced) ?_
          rw [hsource.visible_of_placed hplaced]
          exact hmatches

theorem evalInputs (hsource : source.WellFormed) {top : Frame} {outer : List Frame}
    {structureName : Name} {inputs : List NodeId} {arguments : List Value}
    {properties : Properties} (halong : source.Along .input definitions inputs)
    (hmatches : source.Matches (top :: outer) definitions scope) :
    Simulates base
      (fun properties result frames => properties = result.2 ∧
        source.Advanced definitions inputs top outer frames result.1)
      (source.supplyInputs recur structureName inputs arguments properties
        (base.at (top :: outer) built))
      (program.evalInputs (recur' base.depth) structureName scope inputs arguments properties
        built) := by
  induction inputs generalizing definitions scope built arguments properties top with
  | nil => exact .pure ⟨rfl, .nil hmatches⟩
  | cons input rest ih =>
      have hhead := halong.head
      have hadmits := halong.admits input List.mem_cons_self
      rw [← hhead] at hmatches
      cases hkind : source.kind input with
      | bind bind =>
          have hbind : source.bind? input = some bind := by simp only [bind?, hkind]
          have hkind' : program.kind input = .bind bind := by
            subst hbase
            exact hkind
          rw [supplyInputs_cons hbind, Program.evalInputs.eq_def]
          simp only [hkind']
          refine (h.inputValue hbase hsource hkind hmatches).bind
            fun value result frames built hok => ?_
          obtain ⟨rfl, rfl⟩ := hok
          refine (checkType hbase bind.type value).bind fun _ _ frames built hok => ?_
          subst hok
          refine .record ?_
          have hbinding : source.binding input value = [(input, value)] := by
            simp only [binding, hkind]
          have hdeclared : program.declared input value = [(bind.name, .value value)] := by
            simp only [Program.declared, hkind']
          have hstep := hmatches.step hsource base value
          rw [hbase, hhead, hdeclared, hbinding] at hstep
          refine (ih halong.tail hstep).weaken fun properties' result' frames' hok => ?_
          refine ⟨hok.1, Advanced.cons (?_ : source.Advanced _ rest
            (source.binding input value ++ top) outer frames' result'.1)⟩
          rw [hbinding]
          exact hok.2
      | block | structureDef | property | memberName | reference | evaluate | number | text
      | boolean | binary | unary | conditional => rw [hkind] at hadmits; cases hadmits

theorem evalBody (hsource : source.WellFormed) {top : Frame} {outer : List Frame}
    {ids : List NodeId} {properties : Properties}
    (halong : source.Along .statement definitions ids)
    (hmatches : source.Matches (top :: outer) definitions scope) :
    Simulates base
      (fun properties result frames => properties = result ∧
        ∃ scope, source.Advanced definitions ids top outer frames scope)
      (source.runBody recur ids properties (base.at (top :: outer) built))
      (program.evalBody (recur' base.depth) scope ids properties built) := by
  induction ids generalizing definitions scope built properties top with
  | nil => exact .pure ⟨rfl, scope, .nil hmatches⟩
  | cons id rest ih =>
      have hhead := halong.head
      rw [← hhead] at hmatches
      have hfirst := h base (top :: outer) built scope id hbase
        (halong.admits id List.mem_cons_self) (fun _ _ => List.cons_ne_nil _ _) hmatches
      rw [runBody_cons recur base, hbase]
      refine hfirst.bind fun value result frames built hok => ?_
      obtain ⟨rfl, rfl⟩ := hok
      have hstep := hmatches.step hsource base value
      rw [hbase, hhead] at hstep
      refine (ih halong.tail hstep).weaken fun properties' result' frames' hok => ?_
      obtain ⟨rfl, scope', hadvanced⟩ := hok
      exact ⟨rfl, scope', hadvanced.cons⟩

theorem construct (hsource : source.WellFormed) {frames : List Frame} {structureId : NodeId}
    {values : List Value} {callSpan : Span} :
    Simulates base (fun value result frames' => value = result ∧ frames' = frames)
      (source.construct recur structureId values callSpan (base.at frames built))
      (program.construct (recur' (base.depth + 1)) base.depth structureId values built) := by
  have hkind : program.kind structureId = source.kind structureId := by
    subst hbase
    rfl
  simp only [Source.construct, Program.construct, structure?, hkind]
  cases hdefinition : source.kind structureId with
  | structureDef definition =>
      subst hbase
      refine .ite (fun _ => .fail _) fun _ => .inFrame rfl ?_
      have hpushed : source.program (base.pushed
          ⟨.construct structureId definition.name, callSpan⟩) = source.program base := rfl
      have hempty : source.Matches ([] :: frames) [] [] := rfl
      refine (h.evalInputs hpushed hsource (hsource.along_inputs hdefinition) hempty).bind
        fun properties result frames' built hok => ?_
      obtain ⟨rfl, new, rfl, -, -, hmatches⟩ := hok
      refine (h.evalBody hpushed hsource (hsource.along_body hdefinition) hmatches).bind
        fun properties result' frames' built hok => ?_
      obtain ⟨rfl, scope', new', rfl, -, -, -⟩ := hok
      exact ⟨_, _, rfl, rfl, rfl⟩
  | block | bind | property | memberName | reference | evaluate | number | text
  | boolean | binary | unary | conditional =>
      subst hbase
      exact .fail _

theorem evalReference {frames : List Frame} {id : NodeId} {name : Name}
    (hmatches : source.Matches frames (source.visible id) scope) :
    Simulates base (fun value result frames' => value = result ∧ frames' = frames)
      (source.evalReference recur id name (base.at frames built))
      (program.evalReference scope name built) := by
  have hfind : scope.find? name =
      (source.definitionOf? id name).bind fun definition =>
        (source.standing? frames definition).map Prod.snd := by
    rw [definitionOf?_eq]
    exact hmatches.reverse.lookup_eq name
  subst hbase
  simp only [Source.evalReference, Program.evalReference]
  cases hdefinition : source.definitionOf? id name with
  | none =>
      rw [hdefinition] at hfind
      rw [hfind]
      exact .fail _
  | some definition =>
      obtain ⟨hvisible, hname⟩ := mem_visible_of_definitionOf? hdefinition
      have hentry : source.standing? frames definition ∈ scope.map some := by
        rw [← hmatches]
        exact List.mem_map_of_mem hvisible
      obtain ⟨entry, -, hentry⟩ := List.mem_map.mp hentry
      rw [hdefinition, Option.bind_some, ← hentry, Option.map_some] at hfind
      rw [hfind]
      cases definition with
      | bind node =>
          obtain ⟨name', value, -, hvalue, rfl⟩ := standing?_bind_eq_some.mp hentry.symm
          have hlookup : (base.at frames built).lookup? node = some value := by
            rw [Context.lookup?, show (base.at frames built).frames = frames from rfl, hvalue]
            rfl
          simp only [Step.bind_apply, Step.lookup?, hlookup]
          exact .pure ⟨rfl, rfl⟩
      | structureDef structureId =>
          obtain ⟨_, _, heq⟩ := Option.map_eq_some_iff.mp hentry.symm
          cases heq
          exact .pure ⟨rfl, rfl⟩

theorem child (hsource : source.WellFormed) {frames : List Frame} {id node : NodeId}
    (hplaced : (Place.expression, node) ∈ source.arena.placements (source.kind id))
    (hmatches : source.Matches frames (source.visible id) scope) :
    Simulates base (fun value result frames' => value = result ∧ frames' = frames)
      (recur node (base.at frames built)) (recur' base.depth scope node built) := by
  refine h.expression hbase (hsource.admits_of_placed hplaced) ?_
  rw [hsource.visible_of_placed hplaced]
  exact hmatches

theorem evalEvaluate (hsource : source.WellFormed) {frames : List Frame} {id callee : NodeId}
    {arguments : NodeRange} (hkind : source.kind id = .evaluate callee arguments)
    (hmatches : source.Matches frames (source.visible id) scope) :
    Simulates base (fun value result frames' => value = result ∧ frames' = frames)
      (source.evalEvaluate recur id callee arguments (base.at frames built))
      (program.evalKind recur' base.depth scope id built) := by
  subst hbase
  have hkind' : (source.program base).kind id = .evaluate callee arguments := hkind
  simp only [Source.evalEvaluate, Program.evalKind, hkind']
  have hcallee : (Place.expression, callee) ∈ source.arena.placements (source.kind id) := by
    simp [hkind, Arena.placements]
  have hplaced (node : NodeId) (hnode : node ∈ source.list arguments) :
      (Place.expression, node) ∈ source.arena.placements (source.kind id) :=
    WellFormed.placed_argument hkind hnode
  refine (h.child rfl hsource hcallee hmatches).bind fun called result frames' built hok => ?_
  obtain ⟨rfl, rfl⟩ := hok
  refine (h.evalEach rfl (fun node hnode => hsource.visible_of_placed (hplaced node hnode))
    (fun node hnode => hsource.admits_of_placed (hplaced node hnode)) hmatches).bind
    fun values results frames'' built hok => ?_
  obtain ⟨rfl, rfl⟩ := hok
  cases called with
  | structureRef structureId name => exact h.construct rfl hsource
  | none | text | number | boolean | inst | error => exact .fail _

theorem evalBlock (hsource : source.WellFormed) {frames : List Frame} {id : NodeId}
    {statements : NodeRange} (hkind : source.kind id = .block statements)
    (hmatches : source.Matches frames (source.visible id) scope) :
    Simulates base (fun value result frames' => value = result ∧ frames' = frames)
      (source.evalBlock recur id statements (base.at frames built))
      (program.entered base.depth
        (program.evalStatements (recur' (base.depth + 1)) scope .none
          (program.arena.list statements)) built) := by
  subst hbase
  have hpushed : source.program (base.pushed ⟨.block, source.span id⟩) = source.program base := rfl
  refine .inFrame rfl ?_
  refine (h.evalStatements hpushed hsource (hsource.along_block hkind) hmatches.enter).weaken
    fun value result frames' hok => ?_
  obtain ⟨rfl, scope', new, rfl, -, -, -⟩ := hok
  exact ⟨rfl, rfl⟩

theorem evalKind_of_not_bind (hsource : source.WellFormed) {frames : List Frame} {id : NodeId}
    (hplace : Place.statement.admits (source.kind id).shape = true)
    (hbind : ∀ bind, source.kind id ≠ .bind bind)
    (hmatches : source.Matches frames (source.visible id) scope) :
    Simulates base (fun value result frames' => value = result ∧ frames' = frames)
      (source.evalKind recur id (base.at frames built))
      (program.evalKind recur' base.depth scope id built) := by
  have hkind' : program.kind id = source.kind id := by
    subst hbase
    rfl
  simp only [Source.evalKind]
  cases hkind : source.kind id with
  | bind bind => exact absurd hkind (hbind bind)
  | memberName name =>
      rw [hkind] at hplace
      cases hplace
  | evaluate callee arguments => exact h.evalEvaluate hbase hsource hkind hmatches
  | block statements =>
      simp only [Program.evalKind, hkind', hkind]
      exact h.evalBlock hbase hsource hkind hmatches
  | structureDef definition =>
      simp only [Program.evalKind, hkind', hkind]
      exact .pure ⟨rfl, rfl⟩
  | reference name =>
      simp only [Program.evalKind, hkind', hkind]
      exact h.evalReference hbase hmatches
  | number bits | boolean value =>
      simp only [Program.evalKind, hkind', hkind]
      exact .pure ⟨rfl, rfl⟩
  | text content =>
      subst hbase
      simp only [Program.evalKind, hkind', hkind]
      exact .pure ⟨rfl, rfl⟩
  | property subject member =>
      have hplaced : (Place.expression, subject) ∈ source.arena.placements (source.kind id) := by
        simp [hkind, Arena.placements]
      simp only [Program.evalKind, hkind', hkind]
      refine (h.child hbase hsource hplaced hmatches).bind fun value result frames' built hok => ?_
      obtain ⟨rfl, rfl⟩ := hok
      subst hbase
      exact .ofExcept fun _ _ => ⟨rfl, rfl⟩
  | unary op operand =>
      have hplaced : (Place.expression, operand) ∈ source.arena.placements (source.kind id) := by
        simp [hkind, Arena.placements]
      simp only [Program.evalKind, hkind', hkind]
      refine (h.child hbase hsource hplaced hmatches).bind fun value result frames' built hok => ?_
      obtain ⟨rfl, rfl⟩ := hok
      subst hbase
      exact .ofExcept fun _ _ => ⟨rfl, rfl⟩
  | binary op left right =>
      have hleft : (Place.expression, left) ∈ source.arena.placements (source.kind id) := by
        simp [hkind, Arena.placements]
      have hright : (Place.expression, right) ∈ source.arena.placements (source.kind id) := by
        simp [hkind, Arena.placements]
      simp only [Program.evalKind, hkind', hkind]
      refine (h.child hbase hsource hleft hmatches).bind fun value result frames' built hok => ?_
      obtain ⟨rfl, rfl⟩ := hok
      refine (h.child hbase hsource hright hmatches).bind fun value' result frames' built hok => ?_
      obtain ⟨rfl, rfl⟩ := hok
      subst hbase
      exact .ofExcept fun _ _ => ⟨rfl, rfl⟩
  | conditional condition yes no =>
      have hcondition : (Place.expression, condition) ∈
          source.arena.placements (source.kind id) := by
        simp [hkind, Arena.placements]
      have hyes : (Place.expression, yes) ∈ source.arena.placements (source.kind id) := by
        simp [hkind, Arena.placements]
      have hno : (Place.expression, no) ∈ source.arena.placements (source.kind id) := by
        simp [hkind, Arena.placements]
      simp only [Program.evalKind, hkind', hkind]
      refine (h.child hbase hsource hcondition hmatches).bind
        fun value result frames' built hok => ?_
      obtain ⟨rfl, rfl⟩ := hok
      cases value with
      | boolean choice =>
          cases choice with
          | true => exact h.child hbase hsource hyes hmatches
          | false => exact h.child hbase hsource hno hmatches
      | none | text | number | structureRef | inst | error =>
          subst hbase
          exact .fail _

theorem evalKind (hsource : source.WellFormed) {frames : List Frame} {id : NodeId}
    (hplace : Place.statement.admits (source.kind id).shape = true)
    (hframes : ∀ bind, source.kind id = .bind bind → frames ≠ [])
    (hmatches : source.Matches frames (source.visible id) scope) :
    Simulates base
      (fun value result frames' => value = result ∧ frames' = source.recorded id value frames)
      (source.evalKind recur id (base.at frames built))
      (program.evalKind recur' base.depth scope id built) := by
  by_cases hbind : ∃ bind, source.kind id = .bind bind
  · obtain ⟨bind, hkind⟩ := hbind
    cases frames with
    | nil => exact absurd rfl (hframes bind hkind)
    | cons top outer =>
        have hkind' : program.kind id = .bind bind := by
          subst hbase
          exact hkind
        simp only [Source.evalKind, Source.evalBind, Program.evalKind, hkind, hkind']
        cases hvalue : bind.value with
        | none =>
            rw [hkind] at hplace
            simp [NodeKind.shape, hvalue, Place.admits] at hplace
        | some node =>
            have hplaced : (Place.expression, node) ∈
                source.arena.placements (source.kind id) := by
              simp [hkind, Arena.placements, hvalue]
            simp only [Program.inputValue, hvalue]
            refine (h.child hbase hsource hplaced hmatches).bind
              fun value result frames' built hok => ?_
            obtain ⟨rfl, rfl⟩ := hok
            refine (checkType hbase bind.type value).bind fun _ _ frames' built hok => ?_
            subst hok
            refine .record (.pure ⟨rfl, ?_⟩)
            simp only [recorded, binding, hkind, List.singleton_append]
  · have hne (bind : BindNode) : source.kind id ≠ .bind bind := fun hkind => hbind ⟨bind, hkind⟩
    refine (h.evalKind_of_not_bind hbase hsource hplace hne hmatches).weaken
      fun value result frames' hok => ⟨hok.1, ?_⟩
    rw [hok.2, recorded_eq_self hne]

end Agrees

/-- The evaluator and the evaluator by lexical scope agree at every depth of nesting. -/
theorem agrees_eval (hsource : source.WellFormed) (program : Program) (steps : Nat) :
    source.Agrees program (source.eval steps) (program.eval steps) := by
  induction steps with
  | zero => exact fun _ _ _ _ _ _ _ _ _ => rfl
  | succ steps ih =>
      intro base frames built scope id hbase hplace hframes hmatches
      have hspan : (program.arena.node id).span = source.span id := by
        subst hbase
        rfl
      rw [Source.eval, Program.eval, hspan]
      exact (ih.evalKind hbase hsource hplace hframes hmatches).located

/-- The outcome of the evaluator fixes that of the evaluator by lexical scope. -/
theorem fst_eq_of_simulates {base : Context} {ok : Value → Value → List Frame → Prop}
    (hok : ∀ value result frames, ok value result frames → value = result)
    {outcome : Outcome Value} {run run' : Option (Except PlacedFault Value × Nat)}
    (h : Simulates base ok outcome run) (h' : Simulates base ok outcome run') :
    run.map Prod.fst = run'.map Prod.fst := by
  match run, run', h, h' with
  | none, none, _, _ => rfl
  | none, some (.ok _, _), h, ⟨_, _, h', _⟩ => cases h.symm.trans h'
  | none, some (.error _, _), h, ⟨_, _, h', _⟩ => cases h.symm.trans h'
  | some (.ok _, _), none, ⟨_, _, h, _⟩, h' => cases h'.symm.trans h
  | some (.error _, _), none, ⟨_, _, h, _⟩, h' => cases h'.symm.trans h
  | some (.ok _, _), some (.error _, _), ⟨_, _, h, _⟩, ⟨_, _, h', _⟩ => cases h.symm.trans h'
  | some (.error _, _), some (.ok _, _), ⟨_, _, h, _⟩, ⟨_, _, h', _⟩ => cases h.symm.trans h'
  | some (.ok result, _), some (.ok result', _), ⟨value, _, h, hresult⟩, ⟨_, _, h', hresult'⟩ =>
      cases h.symm.trans h'
      have heq := (hok _ _ _ hresult).symm.trans (hok _ _ _ hresult')
      exact congrArg (some ∘ Except.ok) heq
  | some (.error failure, _), some (.error failure', _), ⟨_, _, h, hfault, hspan⟩,
      ⟨_, _, h', hfault', hspan'⟩ =>
      cases h.symm.trans h'
      have heq : failure = failure' := by
        cases failure
        cases failure'
        exact PlacedFault.mk.injEq .. ▸ ⟨hfault.symm.trans hfault', hspan.symm.trans hspan'⟩
      exact congrArg (some ∘ Except.error) heq

/-- The evaluation of the root and its evaluation by lexical scope, where no frame is run. -/
theorem simulates_root (hsource : source.WellFormed) (base : Context) (steps : Nat)
    (hframes : base.frames = []) (hdepth : base.depth = 0) :
    Simulates base (fun value result frames => value = result ∧ frames = [])
      (source.eval steps source.root base)
      ((source.program base).eval steps 0 [] source.root base.built) := by
  obtain ⟨statements, hkind⟩ := hsource.root_kind
  have hbase : base.at [] base.built = base := by
    rw [← hframes]
    rfl
  have hmatches : source.Matches [] (source.visible source.root) [] := by
    rw [WellFormed.visible_of_parent?_eq_none hsource.parent?_root]
    rfl
  have hroot := source.agrees_eval hsource (source.program base) steps base [] base.built []
    source.root rfl (by rw [hkind]; rfl) (fun bind hbind => by rw [hkind] at hbind; cases hbind)
    hmatches
  rw [hbase, hdepth] at hroot
  exact hroot

/-- For a text that is a program, evaluation comes to what evaluation by lexical scope comes to,
however deeply that one may nest from some depth on. -/
theorem evaluateRoot_answers_lexical {name text : String} {interner : Interner} {source : Source}
    (h : (parse name text interner).1 = .ok source) (limits : Limits) (owner : Nat) :
    ∃ answer bound,
      (∀ steps, bound ≤ steps →
        Program.evaluate ⟨source.arena, source.interner, limits.maxDepth, owner⟩ steps source.root =
          some answer) ∧
      Answers answer (source.evaluateRoot (.fresh limits owner)).1 := by
  have hsource := wellFormed_of_parse h
  have hsimulates (steps : Nat) :=
    source.simulates_root hsource (.fresh limits owner) steps rfl rfl
  have hends := source.eval_ne_unfinished hsource
    (source.nesting_lt_stepBound source.root (.fresh limits owner))
  have hbound := hsimulates (source.stepBound (.fresh limits owner))
  -- Deeper nesting than the bound changes nothing, so neither does it for the lexical evaluation.
  have hsteps (steps : Nat) (hle : source.stepBound (.fresh limits owner) ≤ steps) :
      (source.program (.fresh limits owner)).evaluate steps source.root =
        (source.program (.fresh limits owner)).evaluate (source.stepBound (.fresh limits owner))
          source.root := by
    have hfurther := hsimulates steps
    rw [source.eval_of_le hle hends] at hfurther
    exact fst_eq_of_simulates (fun _ _ _ hok => hok.1) hfurther hbound
  rw [show Context.built (.fresh limits owner) = 0 from rfl] at hbound
  rw [evaluateRoot, evaluate]
  cases hrun : (source.program (.fresh limits owner)).eval
      (source.stepBound (.fresh limits owner)) 0 [] source.root 0 with
  | none =>
      rw [hrun] at hbound
      exact absurd hbound hends
  | some outcome =>
      obtain ⟨answer, built⟩ := outcome
      refine ⟨answer, source.stepBound (.fresh limits owner), fun steps hle => ?_, ?_⟩
      · refine (hsteps steps hle).trans ?_
        rw [Program.evaluate, hrun]
        rfl
      · rw [hrun] at hbound
        cases answer with
        | ok result =>
            obtain ⟨value, frames, heq, rfl, -⟩ := hbound
            rw [heq]
            rfl
        | error failure =>
            obtain ⟨error, frames, heq, hfault, hspan⟩ := hbound
            rw [heq]
            refine ⟨error.backtrace, ?_⟩
            rw [← hfault, ← hspan]

/-- A structure with a default and a body, and a name that an inner block declares again: the
argument is what the block declares. -/
theorem evaluateRoot_answers_lexical_of_shadowing :
    ∃ source, (parse "<code>" "x: \"outer\"\n•P(a: \"default\") (b: a)\n(x: \"inner\" P(x).b)"
        .empty).1 = .ok source ∧
      ∃ bound,
        (∀ steps, bound ≤ steps →
          Program.evaluate ⟨source.arena, source.interner, 512, 0⟩ steps source.root =
            some (.ok (.text "inner"))) ∧
        Answers (.ok (.text "inner")) (source.evaluateRoot (.fresh {} 0)).1 := by
  have hfacts : (parse "<code>"
      "x: \"outer\"\n•P(a: \"default\") (b: a)\n(x: \"inner\" P(x).b)" .empty).1.toOption.bind
      (fun source => (source.evaluateRoot (.fresh {} 0)).1.asText?) = some "inner" := by
    decide +kernel
  obtain ⟨source, h, hread⟩ := exists_of_toOption_bind hfacts
  have hroot := Value.eq_text_of_asText? hread
  obtain ⟨answer, bound, hlexical, hanswers⟩ := evaluateRoot_answers_lexical h {} 0
  have hanswer : answer = .ok (.text "inner") := by
    cases answer with
    | ok result => exact congrArg Except.ok (hanswers.symm.trans hroot)
    | error failure =>
        obtain ⟨backtrace, herror⟩ := hanswers
        rw [hroot] at herror
        cases herror
  subst hanswer
  exact ⟨source, h, bound, hlexical, hanswers⟩

end Source
end Bindery
