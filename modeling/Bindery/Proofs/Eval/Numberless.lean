import Bindery.Proofs.Eval.Sober

/-!
Histories without a NaN. If no number that comes up in the course of a history is a NaN, then every
number is equal to itself, and the evaluations of the history are exact. So it is, to begin with,
wherever the program has no number in it: no operator makes a number of anything else.
-/

namespace Bindery

/-- No number that is come to while the nodes of a history are evaluated is a NaN. -/
def Source.FreeOfNaN (source : Source) (start : Context) (history : List NodeId) : Prop :=
  ∀ steps id context x later, source.Performs start history steps id context →
    source.eval steps id context = .value (.number x) later → x.isNaN = false

def NodeKind.isNumber : NodeKind → Bool
  | .number _ => true
  | _ => false

mutual

/-- The value is no number, and none of its properties is, at any depth. -/
def Value.Numberless : Value → Prop
  | .number _ => False
  | .inst _ _ _ properties => PropertiesNumberless properties
  | .none | .text _ | .boolean _ | .structureRef _ _ | .error _ => True

def PropertiesNumberless : List (Name × Value) → Prop
  | [] => True
  | (_, value) :: rest => value.Numberless ∧ PropertiesNumberless rest

end

theorem propertiesNumberless_iff {properties : List (Name × Value)} :
    PropertiesNumberless properties ↔ ∀ entry ∈ properties, entry.2.Numberless := by
  induction properties with
  | nil => simp [PropertiesNumberless]
  | cons entry rest ih => simp [PropertiesNumberless, ih]

namespace Source

variable {source : Source} {start : Context} {history : List NodeId}

namespace FreeOfNaN

theorem of_append {after : List NodeId} (h : source.FreeOfNaN start (history ++ after)) :
    source.FreeOfNaN start history := by
  rintro steps id context x later ⟨before, top, rest, rfl, hasks⟩
  exact h steps id context x later
    ⟨before, top, rest ++ after, by rw [List.append_assoc, List.cons_append], hasks⟩

/-- The evaluation of the last node is exact. -/
theorem exact {top : NodeId} (h : source.FreeOfNaN start (history ++ [top])) :
    source.Exact (source.stepBound (source.used history start)) top
      (source.used history start) := by
  have hasked (steps : Nat) (id : NodeId) (context : Context)
      (hasks : source.Asks top (source.used history start) steps id context) :
      source.Exact steps id context := by
    induction steps generalizing id context with
    | zero => trivial
    | succ steps ih =>
        refine ⟨fun x later heval => float_beq_self_iff.mpr ?_,
          fun entered node later hcall => ih node later (.call hasks hcall)⟩
        exact h _ _ _ x later ⟨history, top, [], rfl, hasks⟩ heval
  exact hasked _ _ _ .top

end FreeOfNaN

/-- Contexts and values without numbers. -/
def numberless (source : Source) : Discipline source Unit where
  le _ _ := True
  holds _ context := context.HoldsOnly fun _ value => value.Numberless
  good _ value := value.Numberless
  admits _ := True
  le_refl _ := trivial
  le_trans _ _ := trivial
  good_mono _ h := h
  good_none _ := trivial
  good_text _ _ := trivial
  good_boolean _ _ := trivial
  good_structureRef _ _ _ _ := trivial
  good_property h hget := propertiesNumberless_iff.mp h _ (Properties.mem_of_get?_eq_some hget)
  lookup? h hlookup := h.lookup? hlookup
  record h hgood _ := h.record hgood
  keep h hgood _ := h.keep hgood
  enter h henter := h.enter henter
  leave h := h.leave
  build h _ _ hbound := by
    refine ⟨(), trivial, ⟨h.frames, h.demanded⟩,
      propertiesNumberless_iff.mpr fun entry hentry => ?_⟩
    obtain ⟨bind, hbind⟩ := Properties.mem_ofBinds hentry
    exact (hbound _ hbind).1
  fail _ := trivial
  overflow _ := trivial

/-- No NaN comes up in a program without numbers. -/
theorem freeOfNaN_of_numberless (hsource : source.WellFormed)
    (hnumber : ∀ id bits, source.kind id ≠ .number bits) (limits : Limits) (owner : Nat)
    (history : List NodeId) : source.FreeOfNaN (.fresh limits owner) history := by
  have hgoverns := source.numberless.governs_eval hsource fun hnumeric => by
    rcases hnumeric with ⟨id, bits, hkind⟩ | ⟨_, _, hgood⟩
    · exact absurd hkind (hnumber id bits)
    · exact hgood.elim
  intro steps id context x later hperforms heval
  have hfresh : source.numberless.holds () (.fresh limits owner) := .fresh limits owner
  obtain ⟨_, -, hholds⟩ := Discipline.of_performs hgoverns hfresh hperforms
  obtain ⟨_, -, -, hgood, -⟩ := (hgoverns steps id () context hholds).of_value heval
  exact hgood.elim

theorem ne_number_of_all (h : source.arena.nodes.all (!·.kind.isNumber) = true) (id : NodeId)
    (bits : UInt64) : source.kind id ≠ .number bits := by
  intro hkind
  simp only [Source.kind, Source.node, Arena.node] at hkind
  cases hnode : source.arena.nodes[id.index]? with
  | none =>
      rw [hnode] at hkind
      cases hkind
  | some node =>
      rw [hnode] at hkind
      have hall := Array.all_eq_true_iff_forall_mem.mp h node (Array.mem_of_getElem? hnode)
      rw [show node.kind = .number bits from hkind] at hall
      cases hall

end Source
end Bindery
