import Bindery.Proofs.Tree.Parsed
import Bindery.Proofs.Tree.Pieces

/-!
Parentheses around an expression. Where a piece of a program is put into parentheses, the tree gains
one node: a block between the node of the piece and its parent. The nodes of the piece and those
before it keep their numbers, the block has the next one, and all other nodes move on by one.
-/

namespace Bindery

namespace NodeId

variable {inner id other : NodeId}

/-- The number of the block that is put around `inner`. -/
def outer (inner : NodeId) : NodeId := ⟨inner.index + 1⟩

/-- The number that a node has once a block stands around `inner`. -/
def past (inner id : NodeId) : NodeId :=
  if id.index ≤ inner.index then id else ⟨id.index + 1⟩

/-- The node that is listed as a child in the place of `id` once a block stands around `inner`. -/
def listed (inner id : NodeId) : NodeId :=
  if id = inner then inner.outer else inner.past id

theorem past_of_le (h : id.index ≤ inner.index) : inner.past id = id := if_pos h

theorem past_of_lt (h : inner.index < id.index) : inner.past id = ⟨id.index + 1⟩ :=
  if_neg (Nat.not_le.mpr h)

theorem listed_self : inner.listed inner = inner.outer := if_pos rfl

theorem listed_of_ne (h : id ≠ inner) : inner.listed id = inner.past id := if_neg h

theorem index_past : (inner.past id).index =
    if id.index ≤ inner.index then id.index else id.index + 1 := by
  rw [past]
  split <;> rfl

theorem past_injective (h : inner.past id = inner.past other) : id = other := by
  have hindex := congrArg NodeId.index h
  rw [index_past, index_past] at hindex
  refine NodeId.ext ?_
  split at hindex <;> split at hindex <;> omega

theorem past_ne_outer : inner.past id ≠ inner.outer := by
  intro h
  have hindex := congrArg NodeId.index h
  rw [index_past, show inner.outer.index = inner.index + 1 from rfl] at hindex
  split at hindex <;> omega

theorem listed_of_lt (h : id.index < inner.index) : inner.listed id = id := by
  rw [listed_of_ne fun heq => Nat.lt_irrefl _ (heq ▸ h), past_of_le (Nat.le_of_lt h)]

/-- Every number is that of the block or one that another node has got. -/
theorem eq_outer_or_past (inner id : NodeId) :
    id = inner.outer ∨ ∃ before, id = inner.past before := by
  rcases Nat.lt_trichotomy id.index inner.outer.index with hlt | heq | hlt
  · exact .inr ⟨id, (past_of_le (Nat.le_of_lt_succ hlt)).symm⟩
  · exact .inl (NodeId.ext heq)
  · refine .inr ⟨⟨id.index - 1⟩, NodeId.ext ?_⟩
    have hlt : inner.index + 1 < id.index := hlt
    rw [index_past, if_neg (Nat.not_le.mpr (Nat.lt_sub_of_add_lt hlt))]
    exact (Nat.sub_add_cancel (Nat.le_of_lt (Nat.lt_of_le_of_lt (Nat.le_add_left 1 _) hlt))).symm

theorem listed_injective (h : inner.listed id = inner.listed other) : id = other := by
  by_cases hid : id = inner
  · by_cases hother : other = inner
    · rw [hid, hother]
    · rw [hid, listed_self, listed_of_ne hother] at h
      exact absurd h.symm past_ne_outer
  · by_cases hother : other = inner
    · rw [hother, listed_self, listed_of_ne hid] at h
      exact absurd h past_ne_outer
    · rw [listed_of_ne hid, listed_of_ne hother] at h
      exact past_injective h

end NodeId

namespace Arena

variable {arena arena' later later' : Arena} {inner : NodeId}

/-- The second window lists what stands for the children in the first one. -/
structure MovedWindow (inner : NodeId) (arena arena' : Arena) (range range' : NodeRange) :
    Prop where
  inBounds : range.stop ≤ arena.lists.size
  inBounds' : range'.stop ≤ arena'.lists.size
  list_eq : arena'.list range' = (arena.list range).map inner.listed

/-- The same kind of node, with what stands for its children. Neither a body nor the name in a
property access is put into a block. -/
inductive MovedKind (inner : NodeId) (arena arena' : Arena) : NodeKind → NodeKind → Prop
  | block {range range'} : MovedWindow inner arena arena' range range' →
      MovedKind inner arena arena' (.block range) (.block range')
  | bind {name type value value'} : value' = value.map inner.listed →
      MovedKind inner arena arena' (.bind ⟨name, type, value⟩) (.bind ⟨name, type, value'⟩)
  | structureDef {name range range' body body'} : MovedWindow inner arena arena' range range' →
      body ≠ some inner → body' = body.map inner.past →
      MovedKind inner arena arena' (.structureDef ⟨name, range, body⟩)
        (.structureDef ⟨name, range', body'⟩)
  | property {subject subject' member member'} : subject' = inner.listed subject →
      member ≠ inner → member' = inner.past member →
      MovedKind inner arena arena' (.property subject member) (.property subject' member')
  | memberName {name} : MovedKind inner arena arena' (.memberName name) (.memberName name)
  | reference {name} : MovedKind inner arena arena' (.reference name) (.reference name)
  | evaluate {callee callee' range range'} : callee' = inner.listed callee →
      MovedWindow inner arena arena' range range' →
      MovedKind inner arena arena' (.evaluate callee range) (.evaluate callee' range')
  | number {bits} : MovedKind inner arena arena' (.number bits) (.number bits)
  | text {content} : MovedKind inner arena arena' (.text content) (.text content)
  | boolean {value} : MovedKind inner arena arena' (.boolean value) (.boolean value)
  | binary {op left left' right right'} : left' = inner.listed left →
      right' = inner.listed right →
      MovedKind inner arena arena' (.binary op left right) (.binary op left' right')
  | unary {op operand operand'} : operand' = inner.listed operand →
      MovedKind inner arena arena' (.unary op operand) (.unary op operand')
  | conditional {condition condition' yes yes' no no'} : condition' = inner.listed condition →
      yes' = inner.listed yes → no' = inner.listed no →
      MovedKind inner arena arena' (.conditional condition yes no)
        (.conditional condition' yes' no')

/-- The second arena holds one node more: a block around the expression `inner`, which stands for
it among the children of other nodes. -/
structure Grouped (inner : NodeId) (arena arena' : Arena) : Prop where
  lt_size : inner.index < arena.size
  expression : Place.expression.admits (arena.kind inner).shape = true
  size_eq : arena'.size = arena.size + 1
  kind : ∀ id, id.index < arena.size →
    MovedKind inner arena arena' (arena.kind id) (arena'.kind (inner.past id))
  span : ∀ id, id.index < arena.size → (arena'.node (inner.past id)).span = (arena.node id).span
  outer : ∃ range, arena'.kind inner.outer = .block range ∧ range.stop ≤ arena'.lists.size ∧
    arena'.list range = [inner]

theorem MovedWindow.extend {range range' : NodeRange}
    (h : MovedWindow inner arena arena' range range') (hlater : arena.Extends later)
    (hlater' : arena'.Extends later') : MovedWindow inner later later' range range' := by
  have hsize := hlater.lists.length_le
  have hsize' := hlater'.lists.length_le
  refine ⟨Nat.le_trans h.inBounds hsize, Nat.le_trans h.inBounds' hsize', ?_⟩
  rw [hlater.list_eq h.inBounds, hlater'.list_eq h.inBounds', h.list_eq]

theorem MovedKind.extend {kind kind' : NodeKind} (h : MovedKind inner arena arena' kind kind')
    (hlater : arena.Extends later) (hlater' : arena'.Extends later') :
    MovedKind inner later later' kind kind' := by
  cases h with
  | block hwindow => exact .block (hwindow.extend hlater hlater')
  | structureDef hwindow hne hbody => exact .structureDef (hwindow.extend hlater hlater') hne hbody
  | evaluate hcallee hwindow => exact .evaluate hcallee (hwindow.extend hlater hlater')
  | property hsubject hne hmember => exact .property hsubject hne hmember
  | bind hvalue => exact .bind hvalue
  | memberName => exact .memberName
  | reference => exact .reference
  | number => exact .number
  | text => exact .text
  | boolean => exact .boolean
  | binary hleft hright => exact .binary hleft hright
  | unary hoperand => exact .unary hoperand
  | conditional hcondition hyes hno => exact .conditional hcondition hyes hno

/-- A kind of node that lists nodes before `inner` only stays as it is. -/
theorem MovedKind.of_before {kind : NodeKind}
    (hbefore : ∀ child ∈ arena.placements kind, child.2.index < inner.index)
    (hrange : ∀ range, kind.range? = some range → range.stop ≤ arena.lists.size)
    (hlater : arena.Extends later) : MovedKind inner arena later kind kind := by
  have hpast {place : Place} {id : NodeId} (hid : (place, id) ∈ arena.placements kind) :
      id = inner.past id := (NodeId.past_of_le (Nat.le_of_lt (hbefore _ hid))).symm
  have hne {place : Place} {id : NodeId} (hid : (place, id) ∈ arena.placements kind) :
      id ≠ inner := fun heq => Nat.lt_irrefl _ (heq ▸ hbefore _ hid)
  have hlisted {place : Place} {id : NodeId} (hid : (place, id) ∈ arena.placements kind) :
      id = inner.listed id := (NodeId.listed_of_lt (hbefore _ hid)).symm
  have hwindow {place : Place} {range : NodeRange} (hkind : kind.range? = some range)
      (hmem : ∀ id ∈ arena.list range, (place, id) ∈ arena.placements kind) :
      MovedWindow inner arena later range range := by
    refine ⟨hrange range hkind, Nat.le_trans (hrange range hkind) hlater.lists.length_le, ?_⟩
    rw [hlater.list_eq (hrange range hkind)]
    exact (List.map_id' _).symm.trans (List.map_congr_left fun id hid => hlisted (hmem id hid))
  cases kind with
  | block range =>
      exact .block (hwindow rfl fun id hid => List.mem_map.mpr ⟨id, hid, rfl⟩)
  | bind bind =>
      obtain ⟨name, type, value⟩ := bind
      refine .bind ?_
      cases value with
      | none => rfl
      | some value => exact congrArg some (hlisted (List.mem_singleton.mpr rfl))
  | structureDef definition =>
      obtain ⟨name, range, body⟩ := definition
      have hinputs := hwindow rfl fun id hid =>
        List.mem_append_left _ (List.mem_map.mpr ⟨id, hid, rfl⟩)
      cases body with
      | none => exact .structureDef hinputs (fun heq => by cases heq) rfl
      | some body =>
          have hbody : (Place.body, body) ∈ arena.placements
              (.structureDef ⟨name, range, some body⟩) :=
            List.mem_append_right _ (List.mem_singleton.mpr rfl)
          exact .structureDef hinputs (fun heq => hne hbody (Option.some.inj heq))
            (congrArg some (hpast hbody))
  | property subject member =>
      have hmember : (Place.member, member) ∈ arena.placements (.property subject member) :=
        List.mem_cons_of_mem _ List.mem_cons_self
      exact .property (hlisted List.mem_cons_self) (hne hmember) (hpast hmember)
  | evaluate callee range =>
      exact .evaluate (hlisted List.mem_cons_self) (hwindow rfl fun id hid =>
        List.mem_cons_of_mem _ (List.mem_map.mpr ⟨id, hid, rfl⟩))
  | binary op left right =>
      exact .binary (hlisted List.mem_cons_self)
        (hlisted (List.mem_cons_of_mem _ List.mem_cons_self))
  | unary op operand => exact .unary (hlisted List.mem_cons_self)
  | conditional condition yes no =>
      exact .conditional (hlisted List.mem_cons_self)
        (hlisted (List.mem_cons_of_mem _ List.mem_cons_self))
        (hlisted (List.mem_cons_of_mem _ (List.mem_cons_of_mem _ List.mem_cons_self)))
  | memberName name => exact .memberName
  | reference name => exact .reference
  | number bits => exact .number
  | text content => exact .text
  | boolean value => exact .boolean

namespace Grouped

theorem past_lt (h : Grouped inner arena arena') {id : NodeId} (hid : id.index < arena.size) :
    (inner.past id).index < arena'.size := by
  rw [h.size_eq, NodeId.index_past]
  split <;> omega

end Grouped

/-- Both arenas have grown, and the later ones are grouped. -/
structure Onward (inner : NodeId) (arena arena' later later' : Arena) : Prop where
  extend : arena.Extends later
  extend' : arena'.Extends later'
  grouped : Grouped inner later later'

/-- Steps of numbering give out corresponding numbers. -/
structure Moves (inner : NodeId) (arena arena' : Arena) (result result' : NodeId × Arena) : Prop
    extends Onward inner arena arena' result.2 result'.2 where
  later : inner.index < result.1.index
  id_eq : result'.1 = inner.past result.1

/-- What stands for a part that may be missing. -/
structure MovedPart (inner : NodeId) (id? id?' : Option NodeId) : Prop where
  ne : id? ≠ some inner
  eq_past : id?' = id?.map inner.past

variable {last last' : Arena}

theorem Onward.trans (h : Onward inner arena arena' later later')
    (h' : Onward inner later later' last last') : Onward inner arena arena' last last' :=
  ⟨h.extend.trans h'.extend, h.extend'.trans h'.extend', h'.grouped⟩

theorem Onward.moves {result result' : NodeId × Arena} (h : Onward inner arena arena' later later')
    (h' : Moves inner later later' result result') : Moves inner arena arena' result result' :=
  ⟨h.trans h'.toOnward, h'.later, h'.id_eq⟩

theorem Moves.ne {result result' : NodeId × Arena} (h : Moves inner arena arena' result result') :
    result.1 ≠ inner :=
  fun heq => Nat.lt_irrefl _ (heq ▸ h.later)

theorem Moves.listed_eq {result result' : NodeId × Arena}
    (h : Moves inner arena arena' result result') : result'.1 = inner.listed result.1 := by
  rw [h.id_eq, NodeId.listed_of_ne h.ne]

theorem MovedPart.eq_listed {id? id?' : Option NodeId} (h : MovedPart inner id? id?') :
    id?' = id?.map inner.listed := by
  rw [h.eq_past]
  cases id? with
  | none => rfl
  | some id =>
      rw [Option.map_some, Option.map_some, NodeId.listed_of_ne fun heq => h.ne (congrArg some heq)]

theorem Grouped.addList (h : Grouped inner arena arena') {ids ids' : List NodeId}
    (hids : ids' = ids.map inner.listed) :
    Onward inner arena arena' (arena.addList ids).2 (arena'.addList ids').2 ∧
      MovedWindow inner (arena.addList ids).2 (arena'.addList ids').2
        (arena.addList ids).1 (arena'.addList ids').1 := by
  have hextend := Grows.extends_addList arena ids
  have hextend' := Grows.extends_addList arena' ids'
  refine ⟨⟨hextend, hextend', h.lt_size, h.expression, h.size_eq,
    fun id hid => (h.kind id hid).extend hextend hextend', h.span, ?_⟩, ?_⟩
  · obtain ⟨range, hkind, hstop, hlist⟩ := h.outer
    refine ⟨range, hkind, Nat.le_trans hstop hextend'.lists.length_le, ?_⟩
    rw [hextend'.list_eq hstop, hlist]
  · refine ⟨Grows.stop_addList arena ids, Grows.stop_addList arena' ids', ?_⟩
    rw [Grows.list_addList, Grows.list_addList, hids]

theorem Grouped.add (h : Grouped inner arena arena') {kind kind' : NodeKind}
    (hkind : MovedKind inner arena arena' kind kind') (span : Span) :
    Moves inner arena arena' (arena.add ⟨kind, span⟩) (arena'.add ⟨kind', span⟩) := by
  have hextend := Grows.extends_add arena ⟨kind, span⟩
  have hextend' := Grows.extends_add arena' ⟨kind', span⟩
  have hid : (arena'.add ⟨kind', span⟩).1 = inner.past (arena.add ⟨kind, span⟩).1 := by
    have hnew : inner.past (arena.add ⟨kind, span⟩).1 = ⟨arena.size + 1⟩ :=
      NodeId.past_of_lt h.lt_size
    rw [hnew]
    exact congrArg NodeId.mk h.size_eq
  -- A node of the first arena is one from before or the new one.
  have hcases {motive : NodeId → Prop} (hold : ∀ id : NodeId, id.index < arena.size → motive id)
      (hnew : motive (arena.add ⟨kind, span⟩).1) (id : NodeId)
      (hlt : id.index < (arena.add ⟨kind, span⟩).2.size) : motive id := by
    by_cases hlt' : id.index < arena.size
    · exact hold id hlt'
    · rw [Grows.eq_of_lt_size_add (Nat.le_of_not_lt hlt') hlt]
      exact hnew
  have hgrouped : Grouped inner (arena.add ⟨kind, span⟩).2 (arena'.add ⟨kind', span⟩).2 := by
    refine ⟨?_, ?_, ?_, hcases (fun id hlt => ?_) ?_, hcases (fun id hlt => ?_) ?_, ?_⟩
    · rw [Grows.size_add]
      exact Nat.lt_succ_of_lt h.lt_size
    · rw [hextend.kind_eq h.lt_size]
      exact h.expression
    · rw [Grows.size_add, Grows.size_add, h.size_eq]
    · rw [hextend.kind_eq hlt, hextend'.kind_eq (h.past_lt hlt)]
      exact (h.kind id hlt).extend hextend hextend'
    · rw [← hid, Grows.kind_add, Grows.kind_add]
      exact hkind.extend hextend hextend'
    · rw [hextend.node_eq hlt, hextend'.node_eq (h.past_lt hlt), h.span id hlt]
    · rw [← hid, Grows.node_add, Grows.node_add]
    · obtain ⟨range, hrange, hstop, hlist⟩ := h.outer
      have houter : inner.outer.index < arena'.size := by
        rw [h.size_eq]
        exact Nat.succ_lt_succ h.lt_size
      refine ⟨range, ?_, Nat.le_trans hstop hextend'.lists.length_le, ?_⟩
      · rw [hextend'.kind_eq houter, hrange]
      · rw [hextend'.list_eq hstop, hlist]
  exact ⟨⟨hextend, hextend', hgrouped⟩, h.lt_size, hid⟩

end Arena

namespace Numbering
open Arena

variable {inner : NodeId} {arena arena' : Arena}

theorem phrases_append (before after : List Phrase) (arena : Arena) :
    phrases (before ++ after) arena =
      ((phrases before arena).1 ++ (phrases after (phrases before arena).2).1,
        (phrases after (phrases before arena).2).2) := by
  induction before generalizing arena with
  | nil => rfl
  | cons p rest ih =>
      have hcons (rest : List Phrase) : phrases (p :: rest) arena =
          ((phrase p arena).1 :: (phrases rest (phrase p arena).2).1,
            (phrases rest (phrase p arena).2).2) := rfl
      rw [List.cons_append, hcons, ih, hcons]
      rfl

mutual

theorem phrase_moves : (p : Phrase) → {arena arena' : Arena} → Grouped inner arena arena' →
    Moves inner arena arena' (phrase p arena) (phrase p arena')
  | .block span statements, _, _, h => by
      obtain ⟨hstatements, hids⟩ := phrases_moves statements h
      obtain ⟨hadded, hwindow⟩ := hstatements.grouped.addList hids
      exact (hstatements.trans hadded).moves (hadded.grouped.add (.block hwindow) span)
  | .bind span name type value, _, _, h => by
      obtain ⟨hvalue, hid⟩ := phrase?_moves value h
      exact hvalue.moves (hvalue.grouped.add (.bind hid.eq_listed) span)
  | .structureDef span name inputs body, _, _, h => by
      obtain ⟨hinputs, hids⟩ := phrases_moves inputs h
      obtain ⟨hadded, hwindow⟩ := hinputs.grouped.addList hids
      obtain ⟨hbody, hid⟩ := phrase?_moves body hadded.grouped
      have hwindow' := hwindow.extend hbody.extend hbody.extend'
      exact ((hinputs.trans hadded).trans hbody).moves
        (hbody.grouped.add (.structureDef hwindow' hid.ne hid.eq_past) span)
  | .property span subject member memberSpan, _, _, h => by
      have hsubject := phrase_moves subject h
      have hmember := hsubject.grouped.add (@MovedKind.memberName inner _ _ member) memberSpan
      exact (hsubject.trans hmember.toOnward).moves
        (hmember.grouped.add (.property hsubject.listed_eq hmember.ne hmember.id_eq) span)
  | .reference span name, _, _, h => h.add .reference span
  | .number span bits, _, _, h => h.add .number span
  | .text span content, _, _, h => h.add .text span
  | .boolean span value, _, _, h => h.add .boolean span
  | .evaluate span callee arguments, _, _, h => by
      have hcallee := phrase_moves callee h
      obtain ⟨harguments, hids⟩ := phrases_moves arguments hcallee.grouped
      obtain ⟨hadded, hwindow⟩ := harguments.grouped.addList hids
      exact ((hcallee.trans harguments).trans hadded).moves
        (hadded.grouped.add (.evaluate hcallee.listed_eq hwindow) span)
  | .binary span op left right, _, _, h => by
      have hleft := phrase_moves left h
      have hright := phrase_moves right hleft.grouped
      exact (hleft.trans hright.toOnward).moves
        (hright.grouped.add (.binary hleft.listed_eq hright.listed_eq) span)
  | .unary span op operand, _, _, h => by
      have hoperand := phrase_moves operand h
      exact hoperand.moves (hoperand.grouped.add (.unary hoperand.listed_eq) span)
  | .conditional span condition yes no, _, _, h => by
      have hcondition := phrase_moves condition h
      have hyes := phrase_moves yes hcondition.grouped
      have hno := phrase_moves no hyes.grouped
      exact ((hcondition.trans hyes.toOnward).trans hno.toOnward).moves (hno.grouped.add
        (.conditional hcondition.listed_eq hyes.listed_eq hno.listed_eq) span)

theorem phrase?_moves : (p? : Option Phrase) → {arena arena' : Arena} →
    Grouped inner arena arena' →
    Onward inner arena arena' (phrase? p? arena).2 (phrase? p? arena').2 ∧
      MovedPart inner (phrase? p? arena).1 (phrase? p? arena').1
  | none, arena, arena', h =>
      ⟨⟨.refl arena, .refl arena', h⟩, (Option.some_ne_none inner).symm, rfl⟩
  | some p, arena, arena', h => by
      have hp := phrase_moves p h
      refine ⟨hp.toOnward, fun hinner => ?_, congrArg some hp.id_eq⟩
      exact hp.ne (Option.some.inj hinner)

theorem phrases_moves : (ps : List Phrase) → {arena arena' : Arena} →
    Grouped inner arena arena' →
    Onward inner arena arena' (phrases ps arena).2 (phrases ps arena').2 ∧
      (phrases ps arena').1 = (phrases ps arena).1.map inner.listed
  | [], arena, arena', h => ⟨⟨.refl arena, .refl arena', h⟩, rfl⟩
  | p :: rest, arena, arena', h => by
      have hp := phrase_moves p h
      obtain ⟨hrest, hids⟩ := phrases_moves rest hp.grouped
      refine ⟨hp.trans hrest, ?_⟩
      have hcons (arena : Arena) : (phrases (p :: rest) arena).1 =
          (phrase p arena).1 :: (phrases rest (phrase p arena).2).1 := rfl
      rw [hcons, hcons, hp.listed_eq, hids, List.map_cons]

end

/-- What numbering comes to where a piece of the program has been put into parentheses, starting
from one arena. Only at the top can the program be the piece itself. -/
structure Groups (inner : NodeId) (top : Place) (arena : Arena) (result result' : NodeId × Arena) :
    Prop where
  grouped : Grouped inner result.2 result'.2
  size_le : arena.size ≤ inner.index
  id_eq : result'.1 = inner.listed result.1
  plain : result.1 = inner → top.admits .plain = true

/-- The nodes of a piece come right before what is numbered next, its own node being the last, and
so all that is listed anywhere comes before it. -/
theorem index_lt_of_grows {before after : Arena} {place : Place} (hsound : before.Sound)
    (h : before.Grows [(place, inner)] after) :
    before.size ≤ inner.index ∧ after.size = inner.index + 1 ∧
      ∀ id, ∀ child ∈ after.placements (after.kind id), id.index < after.size →
        child.2.index < inner.index := by
  have hbounds := h.interval.bounds (List.mem_singleton.mpr rfl)
  have hsize : after.size = inner.index + 1 := by
    have hinterval := h.interval
    generalize after.size = high at hinterval
    cases hinterval with
    | cons _ beside =>
        cases beside
        rfl
  refine ⟨hbounds.1, hsize, fun id child hchild hid => ?_⟩
  by_cases hold : id.index < before.size
  · rw [h.extend.kind_eq hold, h.extend.placements_eq (hsound id).inBounds] at hchild
    exact Nat.lt_of_lt_of_le ((hsound id).below child hchild) hbounds.1
  · obtain ⟨first, -, hchildren⟩ := h.interval.children (Nat.le_of_not_lt hold) hid
    have hmem : child.2 ∈ after.children id := by
      rw [children_eq_map_placements]
      exact List.mem_map_of_mem hchild
    have hlt := (hchildren.bounds hmem).2
    omega

/-- Where no expression may stand, the node at the top is not the one in parentheses. -/
theorem Groups.movedPart {top : Place} {result result' : NodeId × Arena}
    (h : Groups inner top arena result result') (htop : top.admits .plain = false) :
    MovedPart inner (some result.1) (some result'.1) := by
  have hne : result.1 ≠ inner := fun heq => by
    rw [h.plain heq] at htop
    cases htop
  refine ⟨fun heq => hne (Option.some.inj heq), ?_⟩
  rw [h.id_eq, NodeId.listed_of_ne hne, Option.map_some]

/-- Parentheses around the whole of what is numbered. -/
theorem groups_hole {p : Phrase} (hp : p.Fits .expression) {top : Place}
    (htop : top.admits .plain = true) (span : Span) (hsound : arena.Sound) :
    Groups (phrase p arena).1 top arena (phrase p arena) (phrase (.block span [p]) arena) := by
  have hgrows := phrase_grows p hp hsound
  obtain ⟨hle, hsize, hbefore⟩ := index_lt_of_grows hsound hgrows
  have hblock : phrase (.block span [p]) arena =
      ((phrase p arena).2.addList [(phrase p arena).1]).2.add
        ⟨.block ((phrase p arena).2.addList [(phrase p arena).1]).1, span⟩ := rfl
  rw [hblock]
  generalize phrase p arena = result at hgrows hle hsize hbefore
  obtain ⟨inner, grown⟩ := result
  dsimp only at hgrows hle hsize hbefore
  have hlisted := Grows.extends_addList grown [inner]
  have hadded := Grows.extends_add (grown.addList [inner]).2
    ⟨.block (grown.addList [inner]).1, span⟩
  have hlater := hlisted.trans hadded
  have hnew : ((grown.addList [inner]).2.add ⟨.block (grown.addList [inner]).1, span⟩).1 =
      inner.outer := congrArg NodeId.mk hsize
  have hpast (id : NodeId) (hid : id.index < grown.size) : inner.past id = id :=
    NodeId.past_of_le (by omega)
  refine ⟨⟨?_, ?_, Grows.size_add _ _, fun id hid => ?_, fun id hid => ?_, ?_⟩, hle, ?_,
    fun _ => htop⟩
  · exact hsize ▸ Nat.lt_succ_self _
  · exact hgrows.admits _ (List.mem_singleton.mpr rfl)
  · rw [hpast id hid, hlater.kind_eq hid]
    exact .of_before (fun child hchild => hbefore id child hchild hid)
      (hgrows.sound id).inBounds hlater
  · rw [hpast id hid, hlater.node_eq hid]
  · have hstop := Grows.stop_addList grown [inner]
    refine ⟨(grown.addList [inner]).1, ?_, Nat.le_trans hstop hadded.lists.length_le, ?_⟩
    · rw [← hnew, Grows.kind_add]
    · rw [hadded.list_eq hstop, Grows.list_addList]
  · rw [hnew, NodeId.listed_self]

theorem Moves.groups {before before' : Arena} {top : Place} {result result' : NodeId × Arena}
    (h : Moves inner before before' result result') (hle : arena.size ≤ inner.index) :
    Groups inner top arena result result' :=
  ⟨h.grouped, hle, h.listed_eq, fun heq => absurd heq h.ne⟩

/-- What is numbered before the piece keeps its number. -/
theorem earlier {later : Arena} {place : Place} {id : NodeId}
    (h : arena.Grows [(place, id)] later) (hle : later.size ≤ inner.index) :
    id = inner.listed id :=
  (NodeId.listed_of_lt (Nat.lt_of_lt_of_le (h.index_lt (List.mem_singleton.mpr rfl)) hle)).symm

/-- The inputs of a structure are numbered and listed before its body. -/
theorem movedWindow_of_grows {listed later later' : Arena} {place : Place} {ids : List NodeId}
    (h : arena.Grows (ids.map (place, ·)) listed) (hlater : (listed.addList ids).2.Extends later)
    (hlater' : (listed.addList ids).2.Extends later') (hle : listed.size ≤ inner.index) :
    MovedWindow inner later later' (listed.addList ids).1 (listed.addList ids).1 := by
  have hstop := Grows.stop_addList listed ids
  refine ⟨Nat.le_trans hstop hlater.lists.length_le, Nat.le_trans hstop hlater'.lists.length_le, ?_⟩
  rw [hlater.list_eq hstop, hlater'.list_eq hstop, Grows.list_addList]
  refine (List.map_id' ids).symm.trans (List.map_congr_left fun id hid => ?_)
  have hlt := h.index_lt (List.mem_map.mpr ⟨id, hid, rfl⟩)
  exact (NodeId.listed_of_lt (Nat.lt_of_lt_of_le hlt hle)).symm

/-- One of the phrases in a row has parentheses, or something in it has. -/
theorem groups_phrases {before : List Phrase} {p p' : Phrase} {place top : Place}
    (hbefore : Phrase.FitAll place before) (hsound : arena.Sound)
    (h : Groups inner top (phrases before arena).2 (phrase p (phrases before arena).2)
      (phrase p' (phrases before arena).2)) (after : List Phrase) :
    Grouped inner (phrases (before ++ p :: after) arena).2
        (phrases (before ++ p' :: after) arena).2 ∧
      (phrases (before ++ p' :: after) arena).1 =
        (phrases (before ++ p :: after) arena).1.map inner.listed ∧
      arena.size ≤ inner.index := by
  have hgrows := phrases_grows before hbefore hsound
  obtain ⟨hafter, hids⟩ := phrases_moves after h.grouped
  have hcons (p : Phrase) (arena : Arena) : phrases (p :: after) arena =
      ((phrase p arena).1 :: (phrases after (phrase p arena).2).1,
        (phrases after (phrase p arena).2).2) := rfl
  rw [phrases_append, phrases_append, hcons, hcons]
  refine ⟨hafter.grouped, ?_, Nat.le_trans hgrows.extend.size_le h.size_le⟩
  have hsame : (phrases before arena).1.map inner.listed = (phrases before arena).1 := by
    refine (List.map_congr_left fun id hid => ?_).trans (List.map_id' _)
    have hlt := hgrows.index_lt (List.mem_map.mpr ⟨id, hid, rfl⟩)
    exact NodeId.listed_of_lt (Nat.lt_of_lt_of_le hlt h.size_le)
  rw [List.map_append, List.map_cons, hsame, ← h.id_eq, ← hids]

/-- Wherever the hole is, by induction on what is around it: what is numbered before the hole is the
same in both programs, what is numbered after it moves on. -/
theorem groups_plug {context : Phrase.Context} {piece : Phrase} {top : Place}
    (hfits : (context.plug piece).Fits top) (hpiece : piece.Fits .expression)
    (hplace : (context.place top).admits .plain = true) (span : Span) (hsound : arena.Sound) :
    Groups (context.number piece arena) top arena (phrase (context.plug piece) arena)
      (phrase (context.plug (.block span [piece])) arena) := by
  induction context generalizing top arena with
  | hole => exact groups_hole hpiece hplace span hsound
  | statement _ before context after ih =>
      obtain ⟨hbefore, hhole, -⟩ := Phrase.fitAll_append_iff.mp hfits.2
      have hgroups := ih hhole hplace (phrases_grows before hbefore hsound).sound
      obtain ⟨hgrouped, hids, hle⟩ := groups_phrases hbefore hsound hgroups after
      obtain ⟨hadded, hwindow⟩ := hgrouped.addList hids
      exact Moves.groups (hadded.grouped.add (.block hwindow) _) hle
  | value _ name type context ih =>
      have hgroups := ih hfits.2 hplace hsound
      have hvalue {inner id id' : NodeId} (hid : id' = inner.listed id) :
          some id' = (some id).map inner.listed := congrArg some hid
      exact Moves.groups (hgroups.grouped.add (.bind (hvalue hgroups.id_eq)) _)
        hgroups.size_le
  | input _ name before context after body ih =>
      obtain ⟨hbefore, hhole, -⟩ := Phrase.fitAll_append_iff.mp hfits.2.1
      have hgroups := ih hhole hplace (phrases_grows before hbefore hsound).sound
      obtain ⟨hgrouped, hids, hle⟩ := groups_phrases hbefore hsound hgroups after
      obtain ⟨hadded, hwindow⟩ := hgrouped.addList hids
      obtain ⟨hbody, hpart⟩ := phrase?_moves body hadded.grouped
      have hwindow' := hwindow.extend hbody.extend hbody.extend'
      exact Moves.groups
        (hbody.grouped.add (.structureDef hwindow' hpart.ne hpart.eq_past) _) hle
  | body _ name inputs context ih =>
      have hinputs := phrases_grows inputs hfits.2.1 hsound
      have hadded := hinputs.addList (phrases inputs arena).1
      have hgroups := ih hfits.2.2 hplace hadded.sound
      have hblock := (Phrase.Fits.of_plug hfits.2.2).2 _ (Phrase.fits_block hpiece hplace span)
      have hwindow := movedWindow_of_grows hinputs (phrase_grows _ hfits.2.2 hadded.sound).extend
        (phrase_grows _ hblock hadded.sound).extend hgroups.size_le
      have hbody := hgroups.movedPart rfl
      exact Moves.groups
        (hgroups.grouped.add (.structureDef hwindow hbody.ne hbody.eq_past) _)
        (Nat.le_trans hadded.extend.size_le hgroups.size_le)
  | subject _ context member memberSpan ih =>
      have hgroups := ih hfits.2 hplace hsound
      have hmember := hgroups.grouped.add (@MovedKind.memberName _ _ _ member) memberSpan
      exact Moves.groups
        (hmember.grouped.add (.property hgroups.id_eq hmember.ne hmember.id_eq) _)
        hgroups.size_le
  | callee _ context arguments ih =>
      have hgroups := ih hfits.2.1 hplace hsound
      obtain ⟨harguments, hids⟩ := phrases_moves arguments hgroups.grouped
      obtain ⟨hadded, hwindow⟩ := harguments.grouped.addList hids
      exact Moves.groups (hadded.grouped.add (.evaluate hgroups.id_eq hwindow) _)
        hgroups.size_le
  | argument _ callee before context after ih =>
      have hcallee := phrase_grows callee hfits.2.1 hsound
      obtain ⟨hbefore, hhole, -⟩ := Phrase.fitAll_append_iff.mp hfits.2.2
      have hgroups := ih hhole hplace (phrases_grows before hbefore hcallee.sound).sound
      obtain ⟨hgrouped, hids, hle⟩ := groups_phrases hbefore hcallee.sound hgroups after
      obtain ⟨hadded, hwindow⟩ := hgrouped.addList hids
      have hsame := earlier hcallee hle
      exact Moves.groups (hadded.grouped.add (.evaluate hsame hwindow) _)
        (Nat.le_trans hcallee.extend.size_le hle)
  | left _ op context second ih =>
      have hgroups := ih hfits.2.1 hplace hsound
      have hsecond := phrase_moves second hgroups.grouped
      exact Moves.groups
        (hsecond.grouped.add (.binary hgroups.id_eq hsecond.listed_eq) _) hgroups.size_le
  | right _ op first context ih =>
      have hfirst := phrase_grows first hfits.2.1 hsound
      have hgroups := ih hfits.2.2 hplace hfirst.sound
      have hsame := earlier hfirst hgroups.size_le
      exact Moves.groups (hgroups.grouped.add (.binary hsame hgroups.id_eq) _)
        (Nat.le_trans hfirst.extend.size_le hgroups.size_le)
  | operand _ op context ih =>
      have hgroups := ih hfits.2 hplace hsound
      exact Moves.groups (hgroups.grouped.add (.unary hgroups.id_eq) _) hgroups.size_le
  | condition _ context first second ih =>
      have hgroups := ih hfits.2.1 hplace hsound
      have hfirst := phrase_moves first hgroups.grouped
      have hsecond := phrase_moves second hfirst.grouped
      exact Moves.groups (hsecond.grouped.add
        (.conditional hgroups.id_eq hfirst.listed_eq hsecond.listed_eq) _) hgroups.size_le
  | yes _ test context second ih =>
      have htest := phrase_grows test hfits.2.1 hsound
      have hgroups := ih hfits.2.2.1 hplace htest.sound
      have hsame := earlier htest hgroups.size_le
      have hsecond := phrase_moves second hgroups.grouped
      exact Moves.groups
        (hsecond.grouped.add (.conditional hsame hgroups.id_eq hsecond.listed_eq) _)
        (Nat.le_trans htest.extend.size_le hgroups.size_le)
  | no _ test first context ih =>
      have htest := phrase_grows test hfits.2.1 hsound
      have hfirst := phrase_grows first hfits.2.2.1 htest.sound
      have hgroups := ih hfits.2.2.2 hplace hfirst.sound
      have hle := Nat.le_trans hfirst.extend.size_le hgroups.size_le
      exact Moves.groups (hgroups.grouped.add
        (.conditional (earlier htest hle) (earlier hfirst hgroups.size_le) hgroups.id_eq) _)
        (Nat.le_trans htest.extend.size_le hle)

end Numbering

namespace Source

variable {source source' : Source} {inner : NodeId}

/-- The second source is the first one with a block around the expression `inner`. -/
structure GroupedAt (source source' : Source) (inner : NodeId) : Prop where
  arena : Arena.Grouped inner source.arena source'.arena
  root : source'.root = inner.past source.root
  interner : source'.interner = source.interner

theorem groupedAt_plug {context : Phrase.Context} {piece : Phrase}
    (hfits : (context.plug piece).Fits .body) (hpiece : piece.Fits .expression)
    (hplace : (context.place .body).admits .plain = true) (span : Span)
    (name name' text text' : String) (interner : Interner) :
    (ofPhrase name text (context.plug piece) interner).GroupedAt
      (ofPhrase name' text' (context.plug (.block span [piece])) interner)
      (context.number piece .empty) := by
  have hgroups := Numbering.groups_plug hfits hpiece hplace span Arena.sound_empty
  have hne : (context.plug piece).numbered.1 ≠ context.number piece .empty :=
    fun heq => by cases hgroups.plain heq
  exact ⟨hgroups.grouped, hgroups.id_eq.trans (NodeId.listed_of_ne hne), rfl⟩

/-- In the source of a text every expression that stands where a single one may can be put into
parentheses, which gives a tree again. -/
theorem exists_groupedAt {name text : String} {interner : Interner}
    (h : (parse name text interner).1 = .ok source) {parent : NodeId} {place : Place}
    (hplaced : (place, inner) ∈ source.arena.placements (source.kind parent))
    (hplace : place.admits .plain = true)
    (hexpression : Place.expression.admits (source.kind inner).shape = true) :
    ∃ (context : Phrase.Context) (piece : Phrase),
      source = ofPhrase name text (context.plug piece) source.interner ∧
      context.number piece .empty = inner ∧
      ∀ (span : Span) (name' text' : String) (source' : Source),
        source' = ofPhrase name' text' (context.plug (.block span [piece])) source.interner →
        source'.WellFormed ∧ source.GroupedAt source' inner := by
  obtain ⟨-, mark, statements, -, ⟨d⟩, rfl⟩ := parse_eq_ok_iff.mp h
  have hfits : (Phrase.block ⟨0, mark.offset⟩ statements).Fits .body := ⟨rfl, d.fits⟩
  have hmember : place ≠ .member := fun heq => by
    rw [heq] at hplace
    cases hplace
  obtain ⟨context, piece, hplug, rfl, rfl, hshape⟩ := Phrase.exists_context hfits hplaced hmember
  rw [← hplug] at hfits ⊢
  obtain ⟨hpiece, hfill⟩ := Phrase.Fits.of_plug hfits
  have hpiece' : piece.Fits .expression := hpiece.at (hshape ▸ hexpression)
  refine ⟨context, piece, rfl, rfl, fun span name' text' source' hsource' => ?_⟩
  rw [hsource']
  have hblock := hfill _ (Phrase.fits_block hpiece' hplace span)
  exact ⟨wellFormed_ofPhrase hblock name' text' _,
    groupedAt_plug hfits hpiece' hplace span name name' text text' _⟩

namespace GroupedAt

variable (h : source.GroupedAt source' inner)
include h

theorem kind (id : NodeId) : Arena.MovedKind inner source.arena source'.arena (source.kind id)
    (source'.kind (inner.past id)) := by
  by_cases hid : id.index < source.arena.size
  · exact h.arena.kind id hid
  · have hle := Nat.le_of_not_lt hid
    have hlt := Nat.lt_of_lt_of_le h.arena.lt_size hle
    have hkind : source.kind id = .block .empty := Arena.kind_of_le hle
    have hkind' : source'.kind (inner.past id) = .block .empty := by
      refine Arena.kind_of_le ?_
      rw [h.arena.size_eq, NodeId.past_of_lt hlt]
      exact Nat.succ_le_succ hle
    rw [hkind, hkind']
    refine .block ⟨Nat.zero_le _, Nat.zero_le _, ?_⟩
    simp [Arena.list, NodeRange.empty, NodeRange.stop]

theorem span (id : NodeId) : source'.span (inner.past id) = source.span id := by
  by_cases hid : id.index < source.arena.size
  · exact h.arena.span id hid
  · have hle := Nat.le_of_not_lt hid
    have hlt := Nat.lt_of_lt_of_le h.arena.lt_size hle
    have hle' : source'.arena.size ≤ (inner.past id).index := by
      rw [h.arena.size_eq, NodeId.past_of_lt hlt]
      exact Nat.succ_le_succ hle
    have habsent {arena : Arena} {id : NodeId} (hid : arena.size ≤ id.index) :
        arena.node id = .absent := by
      rw [Arena.node, Array.getElem?_eq_none hid]
      rfl
    rw [Source.span, Source.span, node, node, habsent hle, habsent hle']

end GroupedAt

end Source
end Bindery
