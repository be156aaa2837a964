import Bindery.Proofs.Eval.Frames
import Bindery.Proofs.Eval.Lockstep
import Bindery.Proofs.Eval.Sober

/-!
What a context keeps. A node may be evaluated on its own, where some of the visible binds are held
by the frames being run, and the others, declared further out, are kept or have yet to be demanded.
Each value that is kept was earned: it is what an evaluation of the bind came to, on no other basis
than values that were earned before.
-/

namespace Bindery

/-- A value is kept for the bind. -/
def Context.Keeps (context : Context) (bind : NodeId) : Prop :=
  (context.demanded.lookup bind).isSome = true

theorem Context.Keeps.keep {context : Context} {other : NodeId} (h : context.Keeps other)
    (bind : NodeId) (value : Value) : (context.keep bind value).Keeps other := by
  simp only [Context.Keeps, Context.keep, List.lookup_cons] at h ⊢
  split
  · rfl
  · exact h

theorem Context.Keeps.record {context : Context} {other : NodeId} (h : context.Keeps other)
    (bind : NodeId) (value : Value) : (context.record bind value).Keeps other := by
  simp only [Context.record]
  split
  · exact h.keep bind value
  · exact h

theorem Context.keeps_of_record {context : Context} {bind other : NodeId} {value : Value}
    (hne : other ≠ bind) (h : (context.record bind value).Keeps other) : context.Keeps other := by
  have hgrows : context.Grows (fun key => key = bind) (fun _ => False)
      (context.record bind value) := .record rfl
  rw [Context.Keeps, hgrows.demanded other (fun hfalse => hfalse) fun heq => absurd heq hne] at h
  exact h

/-- The bind is one of the definitions, and nothing is kept for it. -/
def Context.Lacks (context : Context) (outer : List Definition) (bind : NodeId) : Prop :=
  .bind bind ∈ outer ∧ context.demanded.lookup bind = none

/-- An evaluation of the bind has come to the value. Of the binds visible there it kept only known
ones, and it found no value for them that had not been earned. -/
inductive Source.Earned (source : Source) :
    (known : NodeId → Prop) → (bind : NodeId) → (value : Value) → Prop
  | intro {known bind value steps start later} :
      (∀ other, .bind other ∈ source.visible bind →
        start.lookup? other = start.demanded.lookup other) →
      (∀ other value, .bind other ∈ source.visible bind →
        start.demanded.lookup other = some value → Earned source start.Keeps other value) →
      source.evalSober steps bind start = .value value later →
      (∀ other, .bind other ∈ source.visible bind → later.Keeps other → known other) →
      Earned source known bind value

/-- No frame has another value for one of the binds than the one kept, which was earned. -/
structure Source.Settled (source : Source) (outer : List Definition) (context : Context) :
    Prop where
  lookup?_eq : ∀ bind, .bind bind ∈ outer → context.lookup? bind = context.demanded.lookup bind
  earned : ∀ bind value, .bind bind ∈ outer → context.demanded.lookup bind = some value →
    source.Earned context.Keeps bind value

/-- The frames hold the inner binds, and the outer ones are settled. -/
structure Source.Poised (source : Source) (outer inner : List Definition) (context : Context) :
    Prop extends source.Settled outer context where
  held : ∀ bind, .bind bind ∈ inner →
    (context.frames.findSome? (·.lookup bind)).isSome = true

/-- Nothing has changed but that further outer binds are kept, which is settled, and that those of
`own` are bound. -/
structure Source.Advances (source : Source) (outer : List Definition) (own : NodeId → Prop)
    (context later : Context) : Prop where
  grows : context.Grows own (context.Lacks outer) later
  keeps : ∀ bind, context.Keeps bind → later.Keeps bind
  settled : source.Settled outer later

theorem Context.frames_ne_nil {context inner : Context} {frame : CallFrame}
    (henter : context.enter frame = .ok inner) : inner.frames ≠ [] := by
  rw [(Context.enter_eq_ok.mp henter).2]
  exact List.cons_ne_nil _ _

theorem Context.findSome?_record {context : Context} {bind : NodeId} {value : Value}
    (hframes : context.frames ≠ []) :
    (context.record bind value).frames.findSome? (·.lookup bind) = some value := by
  cases hcontext : context.frames with
  | nil => exact absurd hcontext hframes
  | cons frame outer => simp [Context.record, hcontext]

namespace Source

variable {source : Source} {outer outer' inner : List Definition} {own own' : NodeId → Prop}
  {context between later : Context}

theorem Earned.mono {known known' : NodeId → Prop} {bind : NodeId} {value : Value}
    (h : source.Earned known bind value) (hle : ∀ other, known other → known' other) :
    source.Earned known' bind value := by
  cases h with
  | intro hlookup hearned heval hknown =>
      exact .intro hlookup hearned heval fun other hother hkeeps =>
        hle other (hknown other hother hkeeps)

namespace Settled

theorem nil (context : Context) : source.Settled [] context :=
  ⟨fun _ hbind => absurd hbind List.not_mem_nil, fun _ _ hbind => absurd hbind List.not_mem_nil⟩

theorem narrow (h : source.Settled outer context) (hsub : outer' ⊆ outer) :
    source.Settled outer' context :=
  ⟨fun bind hbind => h.lookup?_eq bind (hsub hbind),
    fun bind value hbind => h.earned bind value (hsub hbind)⟩

theorem poised (h : source.Settled outer context) : source.Poised outer [] context :=
  ⟨h, fun _ hbind => absurd hbind List.not_mem_nil⟩

theorem enter (h : source.Settled outer context) {frame : CallFrame}
    (henter : context.enter frame = .ok between) : source.Settled outer between := by
  obtain ⟨-, rfl⟩ := Context.enter_eq_ok.mp henter
  exact ⟨h.lookup?_eq, h.earned⟩

end Settled

theorem Poised.enter (h : source.Poised outer inner context) {frame : CallFrame}
    (henter : context.enter frame = .ok between) : source.Poised outer inner between := by
  refine ⟨h.toSettled.enter henter, ?_⟩
  obtain ⟨-, rfl⟩ := Context.enter_eq_ok.mp henter
  exact h.held

namespace Advances

theorem refl (h : source.Settled outer context) : source.Advances outer own context context :=
  ⟨.refl context, fun _ hbind => hbind, h⟩

theorem frames_ne_nil (h : source.Advances outer own context later)
    (hframes : context.frames ≠ []) : later.frames ≠ [] := fun hnil =>
  hframes ((Context.frames_eq_nil_of_length h.grows.length_frames).mp hnil)

/-- What is still lacking was lacking before. -/
theorem lacks (h : source.Advances outer own context later) {bind : NodeId}
    (hlacks : later.Lacks outer bind) : context.Lacks outer bind := by
  refine ⟨hlacks.1, ?_⟩
  cases hbefore : context.demanded.lookup bind with
  | none => rfl
  | some value =>
      have hkeeps := h.keeps bind (by rw [Context.Keeps, hbefore]; rfl)
      rw [Context.Keeps, hlacks.2] at hkeeps
      cases hkeeps

theorem mono (h : source.Advances outer own context later) (hown : ∀ bind, own bind → own' bind) :
    source.Advances outer own' context later :=
  ⟨h.grows.mono (fun bind hbind => .inl (hown bind hbind)) fun _ hlacks => hlacks, h.keeps,
    h.settled⟩

theorem trans (h : source.Advances outer own context between)
    (h' : source.Advances outer own between later) : source.Advances outer own context later where
  grows := h.grows.trans (h'.grows.mono (fun _ hbind => .inl hbind) fun _ hlacks => h.lacks hlacks)
  keeps bind hbind := h'.keeps bind (h.keeps bind hbind)
  settled := h'.settled

/-- What was lost with a frame that has been left was bound in it. -/
theorem leave (hsettled : source.Settled outer context) {frame : CallFrame}
    (henter : context.enter frame = .ok between)
    (h : source.Advances outer own between later) :
    source.Advances outer (fun _ => False) context later.leave := by
  have hgrows := Context.Grows.leave henter h.grows
  obtain ⟨-, rfl⟩ := Context.enter_eq_ok.mp henter
  refine ⟨hgrows, h.keeps, ⟨fun bind hbind => ?_, h.settled.earned⟩⟩
  have hframes : later.leave.frames = context.frames := h.grows.tail_frames
  have hlookup := hsettled.lookup?_eq bind hbind
  simp only [Context.lookup?, hframes] at hlookup ⊢
  cases hframe : context.frames.findSome? (·.lookup bind) with
  | none => rfl
  | some value =>
      rw [hframe, Option.some_or] at hlookup
      rw [Option.some_or]
      -- What an older frame holds of the bind was kept before, so nothing new is kept.
      have hkept : ¬ context.Lacks outer bind := fun hlacks => by
        rw [hlacks.2] at hlookup
        cases hlookup
      exact (hlookup.trans (hgrows.demanded bind hkept fun hown => hown.elim).symm)

/-- A bind that was not bound is settled as it was, or as the smaller outer part is. -/
theorem settled_at (hsettled : source.Settled outer context)
    (h : source.Advances outer' own context later) {bind : NodeId} (hbind : .bind bind ∈ outer)
    (hown : ¬ own bind) :
    later.lookup? bind = later.demanded.lookup bind ∧
      ∀ value, later.demanded.lookup bind = some value →
        source.Earned later.Keeps bind value := by
  by_cases hmem : .bind bind ∈ outer'
  · exact ⟨h.settled.lookup?_eq bind hmem, fun value => h.settled.earned bind value hmem⟩
  · have hlacks : ¬ context.Lacks outer' bind := fun hlacks => hmem hlacks.1
    rw [h.grows.lookup?_eq hown hlacks, h.grows.demanded bind hlacks fun hbind => absurd hbind hown]
    exact ⟨hsettled.lookup?_eq bind hbind,
      fun value hvalue => (hsettled.earned bind value hbind hvalue).mono h.keeps⟩

theorem widen (h : source.Advances outer' own context later)
    (hsettled : source.Settled outer context) (hsub : outer' ⊆ outer)
    (hown : ∀ bind, .bind bind ∈ outer → ¬ own bind) : source.Advances outer own context later :=
  ⟨h.grows.mono (fun _ hbind => .inl hbind) fun _ hlacks => ⟨hsub hlacks.1, hlacks.2⟩, h.keeps,
    fun bind hbind => (h.settled_at hsettled hbind (hown bind hbind)).1,
    fun bind value hbind => (h.settled_at hsettled hbind (hown bind hbind)).2 value⟩

/-- A bind that was demanded is kept with the value that its evaluation has come to. -/
theorem keep {bind : NodeId} {value : Value}
    (h : source.Advances outer' (source.Binds bind) context later)
    (hsettled : source.Settled outer context) (hsub : outer' ⊆ outer)
    (hlacks : context.Lacks outer bind) (hlookup : later.lookup? bind = some value)
    (hearned : source.Earned later.Keeps bind value) :
    source.Advances outer (fun _ => False) context (later.keep bind value) := by
  have hkept (other : NodeId) (hother : later.Keeps other) :
      (later.keep bind value).Keeps other := hother.keep bind value
  refine ⟨.trans (h.grows.mono (fun other hother => .inr ?_) fun other hother => ?_) (.keep hlacks),
    fun other hother => hkept other (h.keeps other hother), ?_⟩
  · exact hother.1 ▸ hlacks
  · exact ⟨hsub hother.1, hother.2⟩
  · have hsettled' (other : NodeId) (hother : .bind other ∈ outer) :
        (later.keep bind value).lookup? other = (later.keep bind value).demanded.lookup other ∧
          ∀ held, (later.keep bind value).demanded.lookup other = some held →
            source.Earned (later.keep bind value).Keeps other held := by
      by_cases heq : other = bind
      · subst heq
        have hdemanded : (later.keep other value).demanded.lookup other = some value := by
          simp [Context.keep]
        rw [hdemanded]
        refine ⟨?_, fun held hheld => Option.some.inj hheld ▸ hearned.mono hkept⟩
        simp only [Context.lookup?] at hlookup ⊢
        rw [hdemanded]
        rw [show (later.keep other value).frames = later.frames from rfl]
        cases hframes : later.frames.findSome? (·.lookup other) with
        | none => rfl
        | some found =>
            rw [hframes] at hlookup
            exact hlookup
      · have hdemanded : (later.keep bind value).demanded.lookup other =
            later.demanded.lookup other := by
          simp only [Context.keep, List.lookup_cons, beq_false_of_ne heq]
        obtain ⟨hfound, hearned'⟩ := h.settled_at hsettled hother fun hbinds => heq hbinds.1
        rw [hdemanded]
        refine ⟨?_, fun held hheld => (hearned' held hheld).mono hkept⟩
        simp only [Context.lookup?, hdemanded] at hfound ⊢
        exact hfound
    exact ⟨fun other hother => (hsettled' other hother).1,
      fun other held hother => (hsettled' other hother).2 held⟩

/-- A node further in is bound, if not kept. -/
theorem record (h : source.Advances outer (fun _ => False) context later) {bind : NodeId}
    (hbind : .bind bind ∉ outer) (hown : own bind) (value : Value) :
    source.Advances outer own context (later.record bind value) := by
  have hrecord : later.Grows (fun other => other = bind) (fun _ => False)
      (later.record bind value) := .record rfl
  refine ⟨(h.grows.mono (fun _ hfalse => hfalse.elim) fun _ hlacks => hlacks).trans
      (hrecord.mono (fun other heq => .inl (heq ▸ hown)) fun _ hfalse => hfalse.elim),
    fun other hother => (h.keeps other hother).record bind value, fun other hother => ?_,
    fun other held hother hheld => ?_⟩
  all_goals have hne : other ≠ bind := fun heq => hbind (heq ▸ hother)
  · rw [hrecord.lookup?_eq hne (fun hfalse => hfalse),
      hrecord.demanded other (fun hfalse => hfalse) fun heq => absurd heq hne]
    exact h.settled.lookup?_eq other hother
  · rw [hrecord.demanded other (fun hfalse => hfalse) fun heq => absurd heq hne] at hheld
    exact (h.settled.earned other held hother hheld).mono fun _ hkept => hkept.record bind value

end Advances

/-! ### Binds visible at a node -/

section

variable (hsource : source.WellFormed) {id node bind : NodeId}
include hsource

theorem visible_subset (hvisible : source.visible id = outer ++ inner)
    (hbind : .bind bind ∈ outer) : source.visible bind ⊆ outer := by
  obtain ⟨before, after, rfl⟩ := List.append_of_mem hbind
  have hbefore := hsource.visible_of_visible id before (.bind bind) (after ++ inner)
    (by rw [hvisible, List.append_assoc, List.cons_append])
  rw [show source.visible bind = before from hbefore]
  exact List.subset_append_left _ _

theorem not_mem_outer (hvisible : source.visible id = outer ++ inner)
    (hbind : .bind bind ∈ inner) : .bind bind ∉ outer := by
  intro houter
  obtain ⟨before, after, rfl⟩ := List.append_of_mem hbind
  have hbefore := hsource.visible_of_visible id (outer ++ before) (.bind bind) after
    (by rw [hvisible, List.append_assoc])
  refine hsource.not_mem_visible bind ?_
  rw [show source.visible bind = outer ++ before from hbefore]
  exact List.mem_append_left _ houter

/-- A bind does not see itself. -/
theorem not_mem_outer_of_visible (hvisible : source.visible id = outer ++ inner) :
    .bind id ∉ outer := by
  intro houter
  refine hsource.not_mem_visible id ?_
  rw [hvisible]
  exact List.mem_append_left _ houter

end

/-- What changes outside of the inner binds leaves the frames poised. -/
theorem Poised.next (h : source.Poised outer inner context)
    (hadvances : source.Advances outer own context later)
    (hinner : ∀ bind, .bind bind ∈ inner → .bind bind ∉ outer ∧ ¬ own bind) :
    source.Poised outer inner later := by
  refine ⟨hadvances.settled, fun bind hbind => ?_⟩
  obtain ⟨hnot, hown⟩ := hinner bind hbind
  have hheld := h.held bind hbind
  rcases hadvances.grows.frames_cases with ⟨hnil, -⟩ | ⟨top, top', frames, hframes, hframes', heq⟩
  · rw [hnil] at hheld
    cases hheld
  · rw [hframes, List.findSome?_cons] at hheld
    rw [hframes', List.findSome?_cons, heq bind hown fun hlacks => hnot hlacks.1]
    exact hheld

/-- A statement or an input that has been evaluated is one of the inner binds. -/
theorem Poised.define (h : source.Poised outer inner context) {id : NodeId}
    (hheld : ∀ bind, source.kind id = .bind bind →
      (context.frames.findSome? (·.lookup id)).isSome = true) :
    source.Poised outer (inner ++ (source.definition? id).toList) context := by
  refine ⟨h.toSettled, fun bind hbind => ?_⟩
  rcases List.mem_append.mp hbind with hbind | hbind
  · exact h.held bind hbind
  · have hdefinition := Option.mem_toList.mp hbind
    simp only [definition?] at hdefinition
    split at hdefinition <;> cases hdefinition
    exact hheld _ ‹_›

end Source
end Bindery
