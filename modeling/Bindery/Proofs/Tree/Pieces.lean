import Bindery.Proofs.Tree.Context
import Bindery.Proofs.Tree.PostOrder

/-!
Nodes and pieces. Every child that the tree of a program lists, other than the name in a property
access, is the node of a piece of the program: the piece fills the hole of a context, and is
numbered when what stands before the hole has been.
-/

namespace Bindery

/-- A node that has been added between the two arenas lists `id` at `place`. -/
def Arena.Places (before after : Arena) (place : Place) (id : NodeId) : Prop :=
  ∃ parent : NodeId, before.size ≤ parent.index ∧ parent.index < after.size ∧
    (place, id) ∈ after.placements (after.kind parent)

namespace Arena.Places

variable {before middle after : Arena} {place : Place} {id : NodeId}

theorem not_self : ¬ before.Places before place id :=
  fun ⟨_, hle, hlt, _⟩ => absurd hlt (Nat.not_lt_of_le hle)

theorem split (h : before.Places after place id) (hextend : middle.Extends after)
    (hsound : middle.Sound) : before.Places middle place id ∨ middle.Places after place id := by
  obtain ⟨parent, hle, hlt, hid⟩ := h
  by_cases hold : parent.index < middle.size
  · rw [hextend.kind_eq hold, hextend.placements_eq (hsound parent).inBounds] at hid
    exact .inl ⟨parent, hle, hold, hid⟩
  · exact .inr ⟨parent, Nat.le_of_not_lt hold, hlt, hid⟩

theorem addList {ids : List NodeId} (h : before.Places (after.addList ids).2 place id)
    (hsound : after.Sound) : before.Places after place id := by
  rcases h.split (Grows.extends_addList after ids) hsound with h | ⟨parent, hle, hlt, -⟩
  · exact h
  · exact absurd hlt (Nat.not_lt_of_le hle)

theorem add {kind : NodeKind} {span : Span}
    (h : before.Places (after.add ⟨kind, span⟩).2 place id) (hsound : after.Sound) :
    before.Places after place id ∨ (place, id) ∈ after.placements kind := by
  refine (h.split (Grows.extends_add after ⟨kind, span⟩) hsound).imp_right fun hnew => ?_
  obtain ⟨parent, hle, hlt, hid⟩ := hnew
  rw [Grows.eq_of_lt_size_add hle hlt, Grows.kind_add] at hid
  exact hid

end Arena.Places

namespace Phrase.Context
open Bindery.Numbering

/-- How far numbering has come when it reaches the hole. -/
def start : Context → Arena → Arena
  | .hole, arena => arena
  | .statement _ before context _, arena | .input _ _ before context _ _, arena =>
    context.start (phrases before arena).2
  | .body _ _ inputs context, arena =>
    context.start ((phrases inputs arena).2.addList (phrases inputs arena).1).2
  | .argument _ called before context _, arena =>
    context.start (phrases before (phrase called arena).2).2
  | .right _ _ first context, arena => context.start (phrase first arena).2
  | .yes _ test context _, arena => context.start (phrase test arena).2
  | .no _ test first context, arena => context.start (phrase first (phrase test arena).2).2
  | .value _ _ _ context, arena | .subject _ context _ _, arena | .callee _ context _, arena
  | .left _ _ context _, arena | .operand _ _ context, arena | .condition _ context _ _, arena =>
    context.start arena

/-- The number that the piece in the hole gets. -/
def number (context : Context) (piece : Phrase) (arena : Arena) : NodeId :=
  (phrase piece (context.start arena)).1

end Phrase.Context

namespace Numbering
open Arena Grows

variable {arena : Arena} {place top : Place} {id : NodeId}

/-- Where `p` is numbered from `arena` on, the node `id` at `place` is that of the piece in the hole
of the context. -/
structure PieceAt (p : Phrase) (top : Place) (arena : Arena) (place : Place) (id : NodeId)
    (context : Phrase.Context) (piece : Phrase) : Prop where
  plug : context.plug piece = p
  place : context.place top = place
  number : context.number piece arena = id
  extend : (phrase piece (context.start arena)).2.Extends (phrase p arena).2

def HasPiece (p : Phrase) (top : Place) (arena : Arena) (place : Place) (id : NodeId) : Prop :=
  ∃ context piece, PieceAt p top arena place id context piece

/-- The node is that of a piece of one of the phrases. -/
def HavePiece (ps : List Phrase) (top : Place) (arena : Arena) (place : Place) (id : NodeId) :
    Prop :=
  ∃ before p after, ps = before ++ p :: after ∧ HasPiece p top (phrases before arena).2 place id ∧
    (phrase p (phrases before arena).2).2.Extends (phrases ps arena).2

theorem HasPiece.self (p : Phrase) (top : Place) (arena : Arena) :
    HasPiece p top arena top (phrase p arena).1 :=
  ⟨.hole, p, rfl, rfl, rfl, .refl _⟩

theorem HasPiece.first {p : Phrase} {rest : List Phrase} (h : HasPiece p top arena place id)
    (hextend : (phrase p arena).2.Extends (phrases (p :: rest) arena).2) :
    HavePiece (p :: rest) top arena place id :=
  ⟨[], p, rest, rfl, h, hextend⟩

theorem HavePiece.cons {p : Phrase} {rest : List Phrase}
    (h : HavePiece rest top (phrase p arena).2 place id) :
    HavePiece (p :: rest) top arena place id := by
  obtain ⟨before, q, after, rfl, hpiece, hextend⟩ := h
  exact ⟨p :: before, q, after, rfl, hpiece, hextend⟩

theorem havePiece_of_mem {ps : List Phrase} (hfits : Phrase.FitAll top ps) (hsound : arena.Sound)
    (h : (place, id) ∈ (phrases ps arena).1.map (top, ·)) : HavePiece ps top arena place id := by
  induction ps generalizing arena with
  | nil => exact absurd h List.not_mem_nil
  | cons p rest ih =>
      have hgrows := phrase_grows p hfits.1 hsound
      rcases List.mem_cons.mp h with heq | h
      · cases heq
        exact (HasPiece.self p _ arena).first (phrases_grows rest hfits.2 hgrows.sound).extend
      · exact (ih hfits.2 hgrows.sound h).cons

/-- The node is that of a piece of a phrase that may be missing. -/
def MayHavePiece (p? : Option Phrase) (top : Place) (arena : Arena) (place : Place) (id : NodeId) :
    Prop :=
  ∃ p, p? = some p ∧ HasPiece p top arena place id

theorem mayHavePiece_of_mem {p? : Option Phrase}
    (h : (place, id) ∈ (phrase? p? arena).1.toList.map (top, ·)) :
    MayHavePiece p? top arena place id := by
  cases p? with
  | none => exact absurd h List.not_mem_nil
  | some p =>
      cases List.mem_singleton.mp h
      exact ⟨p, rfl, .self p _ arena⟩

mutual

/-- By induction on the program: a node that lists others is one of those that are added for a part
of it, or the last one, which lists the parts. -/
theorem phrase_places : (p : Phrase) → {top : Place} → {arena : Arena} → p.Fits top →
    arena.Sound → arena.Places (phrase p arena).2 place id → place ≠ .member →
    HasPiece p top arena place id
  | .block span statements, top, arena, hfits, hsound, hplaces, hmember => by
      have hgrows := phrases_grows statements hfits.2 hsound
      have hlist := list_addList (phrases statements arena).2 (phrases statements arena).1
      have hstatement : HavePiece statements .statement arena place id := by
        rcases hplaces.add (hgrows.addList _).sound with hplaces | hid
        · exact phrases_places statements hfits.2 hsound (hplaces.addList hgrows.sound) hmember
        · exact havePiece_of_mem hfits.2 hsound
            (congrArg (List.map (Place.statement, ·)) hlist ▸ hid)
      obtain ⟨before, _, after, rfl, ⟨context, piece, rfl, rfl, rfl, hextend⟩, hlater⟩ := hstatement
      exact ⟨.statement span before context after, piece, rfl, rfl, rfl,
        hextend.trans (hlater.trans ((extends_addList _ _).trans (extends_add _ _)))⟩
  | .bind span name type none, _, _, _, hsound, hplaces, _ => by
      rcases hplaces.add hsound with hplaces | hid
      · exact absurd hplaces Places.not_self
      · exact absurd hid List.not_mem_nil
  | .bind span name type (some value), _, arena, hfits, hsound, hplaces, hmember => by
      have hgrows := phrase_grows value hfits.2 hsound
      have hvalue : HasPiece value .expression arena place id := by
        rcases hplaces.add hgrows.sound with hplaces | hid
        · exact phrase_places value hfits.2 hsound hplaces hmember
        · cases List.mem_singleton.mp hid
          exact .self value .expression arena
      obtain ⟨context, piece, rfl, rfl, rfl, hextend⟩ := hvalue
      exact ⟨.value span name type context, piece, rfl, rfl, rfl,
        hextend.trans (extends_add _ _)⟩
  | .structureDef span name inputs body, _, arena, hfits, hsound, hplaces, hmember => by
      have hinputs := phrases_grows inputs hfits.2.1 hsound
      have hadded := hinputs.addList (phrases inputs arena).1
      have hbody := phrase?_grows body hfits.2.2 hadded.sound
      have hlist := (hbody.extend.list_eq (stop_addList _ _)).trans (list_addList _ _)
      have hpieces : HavePiece inputs .input arena place id ∨
          MayHavePiece body .body ((phrases inputs arena).2.addList (phrases inputs arena).1).2
            place id := by
        rcases hplaces.add hbody.sound with hplaces | hid
        · refine (hplaces.split hbody.extend hadded.sound).imp (fun hplaces => ?_) fun hplaces => ?_
          · exact phrases_places inputs hfits.2.1 hsound (hplaces.addList hinputs.sound) hmember
          · exact phrase?_places body hfits.2.2 hadded.sound hplaces hmember
        · refine (List.mem_append.mp hid).imp (fun hid => ?_) mayHavePiece_of_mem
          exact havePiece_of_mem hfits.2.1 hsound
            (congrArg (List.map (Place.input, ·)) hlist ▸ hid)
      rcases hpieces with
        ⟨before, _, after, rfl, ⟨context, piece, rfl, rfl, rfl, hextend⟩, hlater⟩ |
        ⟨_, rfl, context, piece, rfl, rfl, rfl, hextend⟩
      · exact ⟨.input span name before context after body, piece, rfl, rfl, rfl, hextend.trans
          (hlater.trans ((extends_addList _ _).trans (hbody.extend.trans (extends_add _ _))))⟩
      · exact ⟨.body span name inputs context, piece, rfl, rfl, rfl,
          hextend.trans (extends_add _ _)⟩
  | .property span subject member memberSpan, _, arena, hfits, hsound, hplaces, hmember => by
      have hgrows := phrase_grows subject hfits.2 hsound
      have hnamed : Grows _ [(.member, (add (.memberName member) memberSpan _).1)]
          (add (.memberName member) memberSpan _).2 :=
        (Grows.refl hgrows.sound).add memberSpan (inBounds_of_none rfl) rfl rfl
      have hsubject : HasPiece subject .expression arena place id := by
        rcases hplaces.add hnamed.sound with hplaces | hid
        · rcases hplaces.add hgrows.sound with hplaces | hid
          · exact phrase_places subject hfits.2 hsound hplaces hmember
          · exact absurd hid List.not_mem_nil
        · rcases List.mem_cons.mp hid with heq | hid
          · cases heq
            exact .self subject .expression arena
          · cases List.mem_singleton.mp hid
            exact absurd rfl hmember
      obtain ⟨context, piece, rfl, rfl, rfl, hextend⟩ := hsubject
      exact ⟨.subject span context member memberSpan, piece, rfl, rfl, rfl,
        hextend.trans ((extends_add _ _).trans (extends_add _ _))⟩
  | .reference span name, _, arena, _, hsound, hplaces, _
  | .number span bits, _, arena, _, hsound, hplaces, _
  | .text span content, _, arena, _, hsound, hplaces, _
  | .boolean span value, _, arena, _, hsound, hplaces, _ => by
      rcases hplaces.add hsound with hplaces | hid
      · exact absurd hplaces Places.not_self
      · exact absurd hid List.not_mem_nil
  | .evaluate span callee arguments, _, arena, hfits, hsound, hplaces, hmember => by
      have hcallee := phrase_grows callee hfits.2.1 hsound
      have harguments := phrases_grows arguments hfits.2.2 hcallee.sound
      have hlist := list_addList (phrases arguments (phrase callee arena).2).2
        (phrases arguments (phrase callee arena).2).1
      have hpieces : HasPiece callee .expression arena place id ∨
          HavePiece arguments .expression (phrase callee arena).2 place id := by
        rcases hplaces.add (harguments.addList _).sound with hplaces | hid
        · exact ((hplaces.addList harguments.sound).split harguments.extend hcallee.sound).imp
            (phrase_places callee hfits.2.1 hsound · hmember)
            (phrases_places arguments hfits.2.2 hcallee.sound · hmember)
        · rcases List.mem_cons.mp hid with heq | hid
          · cases heq
            exact .inl (.self callee .expression arena)
          · exact .inr (havePiece_of_mem hfits.2.2 hcallee.sound
              (congrArg (List.map (Place.expression, ·)) hlist ▸ hid))
      rcases hpieces with ⟨context, piece, rfl, rfl, rfl, hextend⟩ |
        ⟨before, _, after, rfl, ⟨context, piece, rfl, rfl, rfl, hextend⟩, hlater⟩
      · exact ⟨.callee span context arguments, piece, rfl, rfl, rfl, hextend.trans
          (harguments.extend.trans ((extends_addList _ _).trans (extends_add _ _)))⟩
      · exact ⟨.argument span callee before context after, piece, rfl, rfl, rfl,
          hextend.trans (hlater.trans ((extends_addList _ _).trans (extends_add _ _)))⟩
  | .binary span op left right, _, arena, hfits, hsound, hplaces, hmember => by
      have hleft := phrase_grows left hfits.2.1 hsound
      have hright := phrase_grows right hfits.2.2 hleft.sound
      have hpieces : HasPiece left .expression arena place id ∨
          HasPiece right .expression (phrase left arena).2 place id := by
        rcases hplaces.add hright.sound with hplaces | hid
        · exact (hplaces.split hright.extend hleft.sound).imp
            (phrase_places left hfits.2.1 hsound · hmember)
            (phrase_places right hfits.2.2 hleft.sound · hmember)
        · rcases List.mem_cons.mp hid with heq | hid
          · cases heq
            exact .inl (.self left .expression arena)
          · cases List.mem_singleton.mp hid
            exact .inr (.self right .expression (phrase left arena).2)
      rcases hpieces with ⟨context, piece, rfl, rfl, rfl, hextend⟩ |
        ⟨context, piece, rfl, rfl, rfl, hextend⟩
      · exact ⟨.left span op context right, piece, rfl, rfl, rfl,
          hextend.trans (hright.extend.trans (extends_add _ _))⟩
      · exact ⟨.right span op left context, piece, rfl, rfl, rfl,
          hextend.trans (extends_add _ _)⟩
  | .unary span op operand, _, arena, hfits, hsound, hplaces, hmember => by
      have hgrows := phrase_grows operand hfits.2 hsound
      have hoperand : HasPiece operand .expression arena place id := by
        rcases hplaces.add hgrows.sound with hplaces | hid
        · exact phrase_places operand hfits.2 hsound hplaces hmember
        · cases List.mem_singleton.mp hid
          exact .self operand .expression arena
      obtain ⟨context, piece, rfl, rfl, rfl, hextend⟩ := hoperand
      exact ⟨.operand span op context, piece, rfl, rfl, rfl, hextend.trans (extends_add _ _)⟩
  | .conditional span condition yes no, _, arena, hfits, hsound, hplaces, hmember => by
      have hcondition := phrase_grows condition hfits.2.1 hsound
      have hyes := phrase_grows yes hfits.2.2.1 hcondition.sound
      have hno := phrase_grows no hfits.2.2.2 hyes.sound
      have hpieces : HasPiece condition .expression arena place id ∨
          HasPiece yes .expression (phrase condition arena).2 place id ∨
          HasPiece no .expression (phrase yes (phrase condition arena).2).2 place id := by
        rcases hplaces.add hno.sound with hplaces | hid
        · rcases hplaces.split hno.extend hyes.sound with hplaces | hplaces
          · exact (hplaces.split hyes.extend hcondition.sound).imp
              (phrase_places condition hfits.2.1 hsound · hmember)
              fun hplaces => .inl (phrase_places yes hfits.2.2.1 hcondition.sound hplaces hmember)
          · exact .inr (.inr (phrase_places no hfits.2.2.2 hyes.sound hplaces hmember))
        · rcases List.mem_cons.mp hid with heq | hid
          · cases heq
            exact .inl (.self condition .expression _)
          · rcases List.mem_cons.mp hid with heq | hid
            · cases heq
              exact .inr (.inl (.self yes .expression _))
            · cases List.mem_singleton.mp hid
              exact .inr (.inr (.self no .expression _))
      rcases hpieces with ⟨context, piece, rfl, rfl, rfl, hextend⟩ |
        ⟨context, piece, rfl, rfl, rfl, hextend⟩ | ⟨context, piece, rfl, rfl, rfl, hextend⟩
      · exact ⟨.condition span context yes no, piece, rfl, rfl, rfl,
          hextend.trans (hyes.extend.trans (hno.extend.trans (extends_add _ _)))⟩
      · exact ⟨.yes span condition context no, piece, rfl, rfl, rfl,
          hextend.trans (hno.extend.trans (extends_add _ _))⟩
      · exact ⟨.no span condition yes context, piece, rfl, rfl, rfl,
          hextend.trans (extends_add _ _)⟩

theorem phrase?_places : (p? : Option Phrase) → {top : Place} → {arena : Arena} →
    Phrase.FitsIfAny top p? → arena.Sound → arena.Places (phrase? p? arena).2 place id →
    place ≠ .member → MayHavePiece p? top arena place id
  | none, _, _, _, _, hplaces, _ => absurd hplaces Places.not_self
  | some p, _, _, hfits, hsound, hplaces, hmember =>
      ⟨p, rfl, phrase_places p hfits hsound hplaces hmember⟩

theorem phrases_places : (ps : List Phrase) → {top : Place} → {arena : Arena} →
    Phrase.FitAll top ps → arena.Sound → arena.Places (phrases ps arena).2 place id →
    place ≠ .member → HavePiece ps top arena place id
  | [], _, _, _, _, hplaces, _ => absurd hplaces Places.not_self
  | p :: rest, top, arena, hfits, hsound, hplaces, hmember => by
      have hgrows := phrase_grows p hfits.1 hsound
      have hrest := phrases_grows rest hfits.2 hgrows.sound
      rcases hplaces.split hrest.extend hgrows.sound with hplaces | hplaces
      · exact (phrase_places p hfits.1 hsound hplaces hmember).first hrest.extend
      · exact (phrases_places rest hfits.2 hgrows.sound hplaces hmember).cons

end

theorem phrase_eq_add (p : Phrase) (arena : Arena) :
    ∃ (grown : Arena) (kind : NodeKind) (span : Span),
      phrase p arena = grown.add ⟨kind, span⟩ ∧ kind.shape = p.shape := by
  cases p with
  | bind span name type value => cases value <;> exact ⟨_, _, _, rfl, rfl⟩
  | block | structureDef | property | reference | evaluate | number | text | boolean | binary
  | unary | conditional => exact ⟨_, _, _, rfl, rfl⟩

theorem shape_phrase {p : Phrase} {later : Arena} (h : (phrase p arena).2.Extends later) :
    (later.kind (phrase p arena).1).shape = p.shape := by
  obtain ⟨grown, kind, span, heq, hshape⟩ := phrase_eq_add p arena
  rw [heq] at h ⊢
  rw [h.kind_eq (index_lt_size_add grown ⟨kind, span⟩), kind_add, hshape]

end Numbering

/-- A child in the tree of a program is the node of a piece, unless it is the name in a property
access. -/
theorem Phrase.exists_context {p : Phrase} (hfits : p.Fits .body) {parent id : NodeId}
    {place : Place} (hplaced : (place, id) ∈ p.numbered.2.placements (p.numbered.2.kind parent))
    (hmember : place ≠ .member) :
    ∃ (context : Context) (piece : Phrase), context.plug piece = p ∧ context.place .body = place ∧
      context.number piece .empty = id ∧ piece.shape = (p.numbered.2.kind id).shape := by
  have hlt : parent.index < p.numbered.2.size := by
    refine Nat.lt_of_not_le fun hle => ?_
    rw [Arena.kind_of_le hle] at hplaced
    simp [Arena.placements, Arena.list, NodeRange.empty, NodeRange.stop] at hplaced
  obtain ⟨context, piece, hplug, hplace, hnumber, hextend⟩ :=
    Numbering.phrase_places p hfits Arena.sound_empty ⟨parent, Nat.zero_le _, hlt, hplaced⟩ hmember
  refine ⟨context, piece, hplug, hplace, hnumber, ?_⟩
  rw [← hnumber]
  exact (Numbering.shape_phrase hextend).symm

end Bindery
