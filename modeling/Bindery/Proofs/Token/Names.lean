import Bindery.Proofs.Grammar.Likeness
import Bindery.Proofs.Token.Lines

/-!
Naming the spellings of tokens. A table only grows, so the names that it has given out keep standing
for their strings; and two tables give alike names to the same tokens.
-/

namespace Bindery

namespace Interner

/-- The later table starts with the strings of the earlier one. -/
def Extends (before after : Interner) : Prop := before.strings.toList <+: after.strings.toList

/-- The empty string stands first, as in every table that was ever started. -/
def HoldsEmpty (interner : Interner) : Prop := interner.strings[0]? = some ""

/-- A name of the table stands for a string. -/
structure Names (interner : Interner) (name : Name) (s : String) : Prop where
  lookup : interner.lookup name = s
  empty_iff : name = .empty ↔ s = ""
  lt_size : name.index < interner.strings.size

variable {before middle after interner : Interner}

theorem Extends.refl (interner : Interner) : interner.Extends interner := List.prefix_refl _

theorem Extends.trans (h : before.Extends middle) (h' : middle.Extends after) :
    before.Extends after :=
  List.IsPrefix.trans h h'

theorem Extends.getElem? (h : before.Extends after) {index : Nat}
    (hindex : index < before.strings.size) : after.strings[index]? = before.strings[index]? := by
  obtain ⟨added, hadded⟩ := h
  rw [← Array.getElem?_toList, ← Array.getElem?_toList, ← hadded,
    List.getElem?_append_left hindex]

theorem Extends.names (h : before.Extends after) {name : Name} {s : String}
    (hname : before.Names name s) : after.Names name s := by
  refine ⟨?_, hname.empty_iff, Nat.lt_of_lt_of_le hname.lt_size h.length_le⟩
  rw [← hname.lookup, lookup, lookup, h.getElem? hname.lt_size]

theorem HoldsEmpty.size_pos (h : interner.HoldsEmpty) : 0 < interner.strings.size := by
  apply Nat.pos_of_ne_zero
  intro hsize
  rw [HoldsEmpty, Array.getElem?_eq_none (Nat.le_of_eq hsize)] at h
  cases h

theorem HoldsEmpty.of_extends (h : before.HoldsEmpty) (hextends : before.Extends after) :
    after.HoldsEmpty :=
  (hextends.getElem? h.size_pos).trans h

theorem HoldsEmpty.lookup_empty (h : interner.HoldsEmpty) : interner.lookup .empty = "" := by
  rw [lookup, show interner.strings[Name.empty.index]? = some "" from h]
  rfl

theorem extends_intern (interner : Interner) (s : String) :
    interner.Extends (interner.intern s).2 := by
  rw [intern]
  split
  · exact .refl interner
  · refine ⟨[s], ?_⟩
    rw [Array.toList_push]

theorem HoldsEmpty.get?_empty (h : interner.HoldsEmpty) : interner.get? "" = some .empty := by
  obtain ⟨hlt, heq⟩ := Array.getElem?_eq_some_iff.mp h
  have hfirst : interner.strings.findIdx? (· == "") = some 0 := by
    refine Array.findIdx?_eq_some_iff_getElem.mpr ⟨hlt, ?_, fun j hj => ?_⟩
    · rw [heq, beq_self_eq_true]
    · exact absurd hj (Nat.not_lt_zero _)
  rw [get?, hfirst]
  rfl

/-- A string keeps its name. -/
theorem Extends.get? (h : before.Extends after) {s : String} {name : Name}
    (hname : before.get? s = some name) : after.get? s = some name := by
  obtain ⟨index, hindex, rfl⟩ := Option.map_eq_some_iff.mp hname
  obtain ⟨added, hadded⟩ := h
  have hstrings : after.strings = before.strings ++ added.toArray := by
    rw [← Array.toList_inj, ← hadded, Array.toList_append]
  rw [Interner.get?, hstrings, Array.findIdx?_append, hindex]
  rfl

theorem get?_intern (interner : Interner) (s : String) :
    (interner.intern s).2.get? s = some (interner.intern s).1 := by
  rw [intern]
  split
  · assumption
  · rename_i hnone
    have hnew := Option.map_eq_none_iff.mp hnone
    simp only [Interner.get?, Array.findIdx?_push, hnew, beq_self_eq_true]
    rfl

theorem index_intern_lt (interner : Interner) (s : String) :
    (interner.intern s).1.index < (interner.intern s).2.strings.size := by
  rw [intern]
  split
  · rename_i name hname
    obtain ⟨index, hindex, rfl⟩ := Option.map_eq_some_iff.mp hname
    obtain ⟨hlt, -⟩ := Array.findIdx?_eq_some_iff_getElem.mp hindex
    exact hlt
  · rw [Array.size_push]
    exact Nat.lt_succ_self _

theorem HoldsEmpty.names_intern (h : interner.HoldsEmpty) (s : String) :
    (interner.intern s).2.Names (interner.intern s).1 s := by
  have hlater := h.of_extends (extends_intern interner s)
  refine ⟨lookup_intern interner s, ⟨fun hname => ?_, fun hs => ?_⟩, index_intern_lt interner s⟩
  · rw [← lookup_intern interner s, hname]
    exact hlater.lookup_empty
  · rw [hs, intern, h.get?_empty]

theorem extends_nameKind (interner : Interner) (kind : TokenKind String) :
    interner.Extends (interner.nameKind kind).2 := by
  cases kind with
  | identifier spelling => exact extends_intern interner spelling
  | text content => exact extends_intern interner content
  | number | symbol => exact .refl interner

theorem extends_nameTokens (interner : Interner) (tokens : List (Token String)) :
    interner.Extends (interner.nameTokens tokens).2 := by
  induction tokens generalizing interner with
  | nil => exact .refl interner
  | cons token rest ih => exact (extends_nameKind interner token.kind).trans (ih _)

theorem nameTokens_append (interner : Interner) (front back : List (Token String)) :
    interner.nameTokens (front ++ back) =
      ((interner.nameTokens front).1 ++ ((interner.nameTokens front).2.nameTokens back).1,
        ((interner.nameTokens front).2.nameTokens back).2) := by
  induction front generalizing interner with
  | nil => rfl
  | cons token front ih => simp only [List.cons_append, nameTokens, ih]

/-- What was named once is named the same from then on, and a table that has all names stays as it
is. -/
theorem Extends.intern_eq {interner later : Interner} {s : String}
    (h : (interner.intern s).2.Extends later) :
    later.intern s = ((interner.intern s).1, later) := by
  rw [intern, h.get? (get?_intern interner s)]

theorem Extends.nameKind_eq {interner later : Interner} {kind : TokenKind String}
    (h : (interner.nameKind kind).2.Extends later) :
    later.nameKind kind = ((interner.nameKind kind).1, later) := by
  cases kind with
  | identifier spelling =>
      have hname : later.intern spelling = ((interner.intern spelling).1, later) :=
        Extends.intern_eq h
      rw [nameKind, hname]
      rfl
  | text content =>
      have hname : later.intern content = ((interner.intern content).1, later) :=
        Extends.intern_eq h
      rw [nameKind, hname]
      rfl
  | number | symbol => rfl

theorem Extends.nameTokens_eq {interner later : Interner} {tokens : List (Token String)}
    (h : (interner.nameTokens tokens).2.Extends later) :
    later.nameTokens tokens = ((interner.nameTokens tokens).1, later) := by
  induction tokens generalizing interner with
  | nil => rfl
  | cons token rest ih =>
      have hkind := ((extends_nameTokens (interner.nameKind token.kind).2 rest).trans h).nameKind_eq
      have hrest := @ih (interner.nameKind token.kind).2 h
      simp only [nameTokens, hkind, hrest]

theorem length_nameTokens (interner : Interner) (tokens : List (Token String)) :
    (interner.nameTokens tokens).1.length = tokens.length := by
  induction tokens generalizing interner with
  | nil => rfl
  | cons token rest ih => simp only [nameTokens, List.length_cons, ih]

theorem map_span_nameTokens (interner : Interner) (tokens : List (Token String)) :
    (interner.nameTokens tokens).1.map (·.span) = tokens.map (·.span) := by
  induction tokens generalizing interner with
  | nil => rfl
  | cons token rest ih => simp only [nameTokens, List.map_cons, ih]

theorem nameTokens_eq_append {interner : Interner} {tokens : List (Token String)}
    {front' back' : List (Token Name)} (h : (interner.nameTokens tokens).1 = front' ++ back') :
    ∃ front back, tokens = front ++ back ∧ (interner.nameTokens front).1 = front' ∧
      ((interner.nameTokens front).2.nameTokens back).1 = back' := by
  have hlength : front'.length ≤ tokens.length := by
    rw [← length_nameTokens interner, h, List.length_append]
    exact Nat.le_add_right _ _
  refine ⟨tokens.take front'.length, tokens.drop front'.length,
    (List.take_append_drop _ _).symm, ?_⟩
  rw [← List.take_append_drop front'.length tokens, nameTokens_append] at h
  exact List.append_inj h (by rw [length_nameTokens, List.length_take_of_le hlength])

/-- Tokens in a row have the same names if they stand alone and the table is one that grew from
naming them all. -/
theorem exists_named_infix {interner later : Interner} {tokens : List (Token String)}
    {piece' : List (Token Name)} (h : piece' <:+: (interner.nameTokens tokens).1)
    (hlater : (interner.nameTokens tokens).2.Extends later) :
    ∃ before piece after, tokens = before ++ piece ++ after ∧
      later.nameTokens piece = (piece', later) := by
  obtain ⟨before', after', heq⟩ := h
  obtain ⟨front, after, rfl, hfront, -⟩ := nameTokens_eq_append heq.symm
  obtain ⟨before, piece, rfl, -, hpiece⟩ := nameTokens_eq_append hfront
  rw [nameTokens_append, nameTokens_append] at hlater
  refine ⟨before, piece, after, rfl, ?_⟩
  rw [((extends_nameTokens _ after).trans hlater).nameTokens_eq, hpiece]

theorem nameTokens_shift (interner : Interner) (distance : Nat) (tokens : List (Token String)) :
    interner.nameTokens (tokens.map (·.shift distance)) =
      ((interner.nameTokens tokens).1.map (·.shift distance), (interner.nameTokens tokens).2) := by
  induction tokens generalizing interner with
  | nil => rfl
  | cons token rest ih =>
      simp only [List.map_cons, nameTokens, ih]
      rfl

theorem nameTokens_onNewLine (interner : Interner) (tokens : List (Token String)) :
    interner.nameTokens (onNewLine tokens) =
      (onNewLine (interner.nameTokens tokens).1, (interner.nameTokens tokens).2) := by
  cases tokens with
  | nil => rfl
  | cons token rest => rfl

end Interner

/-- Where a text is read as tokens, these are the ones that stand in it, named. -/
theorem scan_of_lex {text : String} {first second : Interner} {list : TokenList Name}
    (h : lex text first = (.ok list, second)) :
    (Lexer.scan 0 true text.toList).outcome = .ok list.endMark ∧
      first.nameTokens (tokensOf text) = (list.tokens, second) := by
  by_cases hsize : text.utf8ByteSize ≤ maxSourceLength
  · rw [lex_eq first hsize] at h
    cases houtcome : (Lexer.scan 0 true text.toList).outcome with
    | error error =>
        rw [houtcome] at h
        cases h
    | ok mark =>
        rw [houtcome] at h
        cases h
        exact ⟨rfl, rfl⟩
  · rw [lex, if_pos (Nat.not_le.mp hsize)] at h
    cases h

namespace Likeness

/-- Names are alike that stand for the same string of two tables, and offsets that are the given
distance apart. -/
def spelled (first second : Interner) (distance : Nat) : Likeness where
  name n n' := ∃ s, first.Names n s ∧ second.Names n' s
  offset a a' := a' = a + distance
  empty_iff := by
    intro n n' h
    obtain ⟨s, hfirst, hsecond⟩ := h
    rw [hfirst.empty_iff, hsecond.empty_iff]
  min := by omega
  max := by omega

variable {first second later later' : Interner} {distance : Nat}

theorem alikeKind_nameKind (hfirst : first.HoldsEmpty) (hsecond : second.HoldsEmpty)
    (kind : TokenKind String) (hlater : (first.nameKind kind).2.Extends later)
    (hlater' : (second.nameKind kind).2.Extends later') :
    (spelled later later' distance).AlikeKind (first.nameKind kind).1 (second.nameKind kind).1 := by
  cases kind with
  | identifier spelling =>
      exact .identifier ⟨spelling, hlater.names (hfirst.names_intern spelling),
        hlater'.names (hsecond.names_intern spelling)⟩
  | text content =>
      exact .text ⟨content, hlater.names (hfirst.names_intern content),
        hlater'.names (hsecond.names_intern content)⟩
  | number => exact .number
  | symbol => exact .symbol

/-- Two tables name the same tokens alike, wherever these stand. -/
theorem alikeTokens_nameTokens (hfirst : first.HoldsEmpty) (hsecond : second.HoldsEmpty)
    (tokens : List (Token String)) (hlater : (first.nameTokens tokens).2.Extends later)
    (hlater' : (second.nameTokens (tokens.map (·.shift distance))).2.Extends later') :
    (spelled later later' distance).AlikeTokens (first.nameTokens tokens).1
      (second.nameTokens (tokens.map (·.shift distance))).1 := by
  induction tokens generalizing first second with
  | nil => exact .nil
  | cons token rest ih =>
      have hmore := Interner.extends_nameTokens (first.nameKind token.kind).2 rest
      have hmore' := Interner.extends_nameTokens (second.nameKind token.kind).2
        (rest.map (·.shift distance))
      refine .cons ⟨?_, ⟨rfl, rfl⟩, fun _ => ⟨rfl, rfl⟩⟩ ?_
      · exact alikeKind_nameKind hfirst hsecond token.kind (hmore.trans hlater)
          (hmore'.trans hlater')
      · exact ih (hfirst.of_extends (Interner.extends_nameKind first token.kind))
          (hsecond.of_extends (Interner.extends_nameKind second token.kind)) hlater hlater'

end Likeness
end Bindery
