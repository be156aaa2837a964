import Bindery.Proofs.Grammar.Completion
import Bindery.Proofs.Grammar.Errors
import Bindery.Proofs.Grammar.Likeness
import Bindery.Proofs.Token.Munch
import Bindery.Proofs.Token.Names
import Bindery.Proofs.Token.Slices

/-!
The first error. Where a token list is no program, the error is reported at the first entry that no
program has there: what comes before it begins a program, and nothing that begins with it too does,
whatever comes after it. The entries of a list are its tokens and its end.
-/

namespace Bindery

namespace Grammar

/-- How a filler is written. -/
def Filler.text : Filler → String
  | .name => "x"
  | .symbol s => s.spelling

/-- A text with fillers on the lines after it. -/
def onLines (front : String) : List Filler → String
  | [] => front
  | filler :: rest => onLines (front ++ "\n" ++ filler.text) rest

/-- A token is a filler on a line of its own. -/
structure Fills {α : Type} (name : α) (filler : Filler) (token : Token α) : Prop where
  kind : token.kind = filler.kind name
  layout : token.layout = .afterBreak

theorem Filler.lexeme (filler : Filler) :
    Lexer.Lexeme filler.text.toList (filler.kind "x") := by
  cases filler with
  | name => exact .identifier (.inl rfl) nofun fun symbol => by cases symbol <;> decide
  | symbol s => exact .symbol (by cases s <;> decide)

theorem Filler.gapLength (filler : Filler) : Lexer.gapLength false filler.text.toList = 0 := by
  cases filler with
  | name => rfl
  | symbol s => cases s <;> rfl

/-- A filler alone is one token. -/
theorem Filler.exists_scan (filler : Filler) : ∃ token mark,
    Lexer.scan 0 true filler.text.toList = ⟨[token], .ok mark⟩ ∧ token.kind = filler.kind "x" := by
  obtain ⟨c, more, htext, htakes⟩ := filler.lexeme.takes
  obtain ⟨kind, length, hmunch, hle, hsame⟩ := htakes []
  have hgap := filler.gapLength
  rw [List.append_nil] at hmunch
  obtain rfl : length = more.length := Nat.le_antisymm (Lexer.munch_append_break hmunch []).1 hle
  rw [htext] at hgap ⊢
  rw [Lexer.scan_eq, hgap]
  simp only [List.take_zero, List.drop_zero, Lexer.scanFrom, hmunch, List.drop_length]
  rw [Lexer.scan_eq]
  exact ⟨_, _, rfl, hsame (Nat.le_refl _)⟩

/-- Fillers on the lines after a text are read after its tokens. -/
theorem exists_scan_onLines {front : String} {mark : EndMark}
    (h : (Lexer.scan 0 true front.toList).outcome = .ok mark) (fillers : List Filler) :
    ∃ more last, (Lexer.scan 0 true (onLines front fillers).toList).outcome = .ok last ∧
      tokensOf (onLines front fillers) = tokensOf front ++ more ∧
      List.Forall₂ (Fills "x") fillers more := by
  induction fillers generalizing front mark with
  | nil => exact ⟨[], mark, h, (List.append_nil _).symm, .nil⟩
  | cons filler rest ih =>
      obtain ⟨token, mark', hscan, hkind⟩ := filler.exists_scan
      obtain ⟨mark, hmark⟩ := Lexer.outcome_lines h (congrArg Lexer.Scan.outcome hscan)
      obtain ⟨more, last, hlast, htokens, hmore⟩ := ih hmark
      have hfiller : tokensOf filler.text = [token] := congrArg Lexer.Scan.tokens hscan
      rw [Lexer.tokensOf_lines h, hfiller, List.append_assoc] at htokens
      exact ⟨_, last, hlast, htokens, .cons ⟨hkind, rfl⟩ hmore⟩

/-- One table names all names of the fillers alike. -/
theorem fills_nameTokens {interner : Interner} {fillers : List Filler}
    {tokens : List (Token String)} (h : List.Forall₂ (Fills "x") fillers tokens) :
    List.Forall₂ (Fills (interner.intern "x").1) fillers (interner.nameTokens tokens).1 := by
  generalize hname : (interner.intern "x").1 = name
  induction h generalizing interner with
  | nil => exact .nil
  | @cons filler token fillers tokens hfills _ ih =>
      refine .cons ⟨?_, hfills.layout⟩ (ih ?_)
      · simp only [hfills.kind]
        cases filler with
        | name => exact congrArg _ hname
        | symbol => rfl
      · rw [hfills.kind]
        cases filler with
        | symbol => exact hname
        | name =>
            have hagain : (interner.intern "x").2.intern "x" = _ :=
              Interner.Extends.intern_eq (.refl _)
            exact (congrArg Prod.fst hagain).trans hname

theorem alikeTokens_fill {name : Name} {fillers : List Filler} {tokens : Tokens}
    (h : List.Forall₂ (Fills name) fillers tokens) :
    Likeness.elsewhere.AlikeTokens (fill name fillers) tokens := by
  induction h with
  | nil => exact .nil
  | cons hfills _ ih =>
      refine .cons ⟨?_, ⟨trivial, trivial⟩, fun _ => ?_⟩ ih
      · exact Likeness.elsewhere_alikeKind_iff.mpr hfills.kind.symm
      · rw [hfills.layout]
        exact ⟨rfl, rfl⟩

end Grammar

namespace TokenList
open Grammar

/-- An entry of a token list. -/
structure Entry where
  /-- What a token says; the end of the input says nothing. -/
  kind : Option (TokenKind Name)
  span : Span
  layout : Layout

namespace Entry

def ofToken (token : Token Name) : Entry := ⟨some token.kind, token.span, token.layout⟩

def ofEnd (mark : EndMark) : Entry := ⟨none, mark.span, mark.layout⟩

/-- What an entry is, wherever it stands. -/
def seen (entry : Entry) : Option (TokenKind Name) × Layout := (entry.kind, entry.layout)

def describe (entry : Entry) : String := (entry.kind.map (·.describe)).getD endOfInput

theorem kind_ne (token : Token Name) (mark : EndMark) : (ofToken token).kind ≠ (ofEnd mark).kind :=
  Option.some_ne_none _

end Entry

/-- The entries of a list, its end being the last. -/
def entries (list : TokenList Name) : List Entry :=
  list.tokens.map .ofToken ++ [.ofEnd list.endMark]

/-- The list is what a text is read as, whatever its size. -/
def ReadFrom (text : String) (interner : Interner) (list : TokenList Name) : Prop :=
  (Lexer.scan 0 true text.toList).outcome = .ok list.endMark ∧
    (interner.nameTokens (tokensOf text)).1 = list.tokens

/-- The error is about the entry at an index: this is not what was expected, or it stands where a
name should have been given a value. -/
inductive ErrorAt (list : TokenList Name) (interner : Interner) (i : Nat) : ParseError → Prop
  | unexpected {what entry} : list.entries[i]? = some entry →
      ErrorAt list interner i (.unexpectedToken what entry.describe entry.span)
  | unvalued {name span layout before after declared} :
      list.tokens = before ++ ⟨.identifier name, span, layout⟩ :: after →
      Declares after declared (list.tokens.drop i) → ¬ Next .colon (list.tokens.drop i) →
      ErrorAt list interner i (.unvaluedBind (interner.lookup name) span)

/-- The list is a program. -/
def Accepted (list : TokenList Name) : Prop :=
  ∃ p, Parser.program list.tokens list.endMark.offset = .ok p

/-- The entry at an index is the first that no program has there. -/
structure FirstImpossible (list : TokenList Name) (i : Nat) : Prop where
  hopeless : ∀ list' : TokenList Name,
    (list'.entries.take (i + 1)).map Entry.seen = (list.entries.take (i + 1)).map Entry.seen →
      ¬ list'.Accepted
  possible : ∃ list' : TokenList Name, list'.entries.take i = list.entries.take i ∧ list'.Accepted
  /-- What a text has before the entry can be gone on with in a text. -/
  writable : ∀ text interner, (lex text interner).1 = .ok list →
    ∃ (text' : String) (list' : TokenList Name), list'.ReadFrom text' interner ∧
      list'.entries.take i = list.entries.take i ∧ list'.Accepted

theorem readFrom_of_lex {text : String} {interner : Interner} {list : TokenList Name}
    (h : (lex text interner).1 = .ok list) : list.ReadFrom text interner := by
  obtain ⟨hmark, hnamed⟩ := scan_of_lex (Prod.ext h rfl)
  exact ⟨hmark, congrArg Prod.fst hnamed⟩

theorem take_entries {used rest : Tokens} {mark : EndMark} :
    (TokenList.mk (used ++ rest) mark).entries.take used.length = used.map .ofToken := by
  simp only [entries, List.map_append, List.append_assoc]
  exact List.take_left' (List.length_map _)

section Entries

variable {α : Type} {see : Entry → α} {R : Token Name → Token Name → Prop}

/-- Both lists end here, or both go on with a token. -/
def Continues (see : Entry → α) (R : Token Name → Token Name → Prop) (list list' : TokenList Name) :
    Prop :=
  list.tokens = [] ∧ list'.tokens = [] ∧ see (.ofEnd list.endMark) = see (.ofEnd list'.endMark) ∨
    ∃ token further token' further', list.tokens = token :: further ∧
      list'.tokens = token' :: further' ∧ R token token'

/-- Lists that begin alike have alike tokens up to there. -/
theorem exists_of_take_eq
    (htoken : ∀ token token', see (.ofToken token) = see (.ofToken token') → R token token')
    (hend : ∀ token mark, see (.ofToken token) ≠ see (.ofEnd mark))
    {used rest tokens' : Tokens} {mark mark' : EndMark}
    (h : ((TokenList.mk (used ++ rest) mark).entries.take (used.length + 1)).map see =
      ((TokenList.mk tokens' mark').entries.take (used.length + 1)).map see) :
    ∃ used' rest', tokens' = used' ++ rest' ∧ List.Forall₂ R used used' ∧
      Continues see R ⟨rest, mark⟩ ⟨rest', mark'⟩ := by
  induction used generalizing tokens' with
  | nil =>
      refine ⟨[], tokens', rfl, .nil, ?_⟩
      cases rest <;> cases tokens' <;> have hfirst := (List.cons.inj h).1
      · exact .inl ⟨rfl, rfl, hfirst⟩
      · exact absurd hfirst.symm (hend _ _)
      · exact absurd hfirst (hend _ _)
      · exact .inr ⟨_, _, _, _, rfl, rfl, htoken _ _ hfirst⟩
  | cons token used ih =>
      cases tokens' with
      | nil => exact absurd (List.cons.inj h).1 (hend _ _)
      | cons token' tokens' =>
          obtain ⟨used', rest', rfl, hused, hrest⟩ := ih (List.cons.inj h).2
          exact ⟨token' :: used', rest', rfl, .cons (htoken _ _ (List.cons.inj h).1) hused, hrest⟩

theorem alikeToken_of_seen {token token' : Token Name}
    (h : (Entry.ofToken token).seen = (Entry.ofToken token').seen) :
    Likeness.elsewhere.AlikeToken token token' where
  kind := Likeness.elsewhere_alikeKind_iff.mpr (Option.some.inj (Prod.mk.inj h).1)
  span := ⟨trivial, trivial⟩
  layout _ := by rw [show token.layout = token'.layout from (Prod.mk.inj h).2]; exact ⟨rfl, rfl⟩

theorem eq_of_entry {token token' : Token Name} (h : Entry.ofToken token = Entry.ofToken token') :
    token = token' := by
  cases token
  cases token'
  cases h
  rfl

end Entries

end TokenList

namespace Grammar

/-- Where a text ends does not matter to what is refused in it. -/
theorem Refuses.program_stop {tokens rest : Tokens} {complaint : Complaint} {stop : Nat}
    (h : Refuses (.program stop) tokens complaint rest) (stop' : Nat) :
    Refuses (.program stop') tokens complaint rest := by
  cases h with
  | here h =>
      cases h with
      | program d hnext => exact .here (.program d hnext)
      | type hc => rcases hc with hc | hc <;> cases hc
  | further h hrefuses =>
      cases h with
      | program => exact .further .program hrefuses
      | value hc => rcases hc with hc | hc <;> cases hc

/-- A name is said to have no value where no value follows it and its type. -/
theorem Refuses.unvalued {c : Category} {tokens rest : Tokens} {name : Name} {span : Span}
    (h : Refuses c tokens (.unvalued name span) rest) :
    ∃ before layout after declared, tokens = before ++ ⟨.identifier name, span, layout⟩ :: after ∧
      Declares after declared rest ∧ ¬ Next .colon rest := by
  generalize hcomplaint : Complaint.unvalued name span = complaint at h
  induction h with
  | here h =>
      cases h <;> cases hcomplaint
      rename_i hdeclared hcolon
      exact ⟨[], _, _, _, rfl, hdeclared, hcolon⟩
  | further h _ ih =>
      obtain ⟨before, layout, after, declared, rfl, hrest⟩ := ih hcomplaint
      obtain ⟨front, rfl, -⟩ := h.refit
      exact ⟨front ++ before, layout, after, declared, (List.append_assoc ..).symm, hrest⟩

end Grammar

namespace TokenList
open Grammar

variable {list : TokenList Name} {interner : Interner} {complaint : Complaint} {used rest : Tokens}

theorem errorAt (htokens : list.tokens = used ++ rest)
    (h : Refuses (.program list.endMark.offset) list.tokens complaint rest) :
    list.ErrorAt interner used.length
      (Failure.toParseError ⟨complaint, rest⟩ list.endMark interner) := by
  have hdrop : list.tokens.drop used.length = rest := by rw [htokens, List.drop_left]
  cases complaint with
  | unvalued name span =>
      obtain ⟨before, layout, after, declared, heq, hdeclared, hcolon⟩ := h.unvalued
      exact .unvalued heq (hdrop ▸ hdeclared) (hdrop ▸ hcolon)
  | expected what =>
      have hentry : list.entries[used.length]? = (TokenList.mk rest list.endMark).entries[0]? := by
        simp only [entries, htokens, List.map_append, List.append_assoc]
        rw [List.getElem?_append_right (Nat.le_of_eq (List.length_map _)), List.length_map,
          Nat.sub_self]
      cases rest with
      | nil => exact .unexpected hentry
      | cons token rest => exact .unexpected hentry

/-- What is alike to what is refused is no program, and what is alike to a program is one. -/
theorem accepted_iff_of_alike {tokens tokens' : Tokens} {mark mark' : EndMark}
    (h : Likeness.elsewhere.AlikeTokens tokens tokens') :
    Accepted ⟨tokens, mark⟩ ↔ Accepted ⟨tokens', mark'⟩ := by
  have hread : Likeness.elsewhere.AlikeRead (Parser.program tokens mark.offset)
      (Parser.program tokens' mark'.offset) := h.program trivial trivial
  unfold Accepted
  generalize Parser.program tokens mark.offset = outcome,
    Parser.program tokens' mark'.offset = outcome' at hread
  cases hread with
  | ok => exact iff_of_true ⟨_, rfl⟩ ⟨_, rfl⟩
  | error => exact iff_of_false nofun nofun

theorem not_accepted_of_refuses
    (h : Refuses (.program list.endMark.offset) list.tokens complaint rest) : ¬ list.Accepted := by
  rintro ⟨p, hp⟩
  rw [h.rejects] at hp
  cases hp

/-- A list is refused as well that goes on otherwise after the entry where it is refused, and so is
one that is alike up to there. -/
theorem not_accepted_of_seen (h : Refuses (.program list.endMark.offset) list.tokens complaint rest)
    (htokens : list.tokens = used ++ rest) {list' : TokenList Name}
    (hsame : (list'.entries.take (used.length + 1)).map Entry.seen =
      (list.entries.take (used.length + 1)).map Entry.seen) : ¬ list'.Accepted := by
  obtain ⟨tokens, mark⟩ := list
  obtain ⟨tokens', mark'⟩ := list'
  obtain rfl : tokens = used ++ rest := htokens
  obtain ⟨_, hused, hrefit⟩ := h.refit
  obtain rfl := List.append_cancel_right hused
  obtain ⟨used', rest', rfl, halike, hcontinues⟩ :=
    exists_of_take_eq (fun _ _ => alikeToken_of_seen)
      (fun token mark h => Entry.kind_ne token mark (congrArg Prod.fst h)) hsame.symm
  have hother : ∃ rest'', rest''.head? = rest.head? ∧
      Likeness.elsewhere.AlikeTokens rest'' rest' := by
    rcases hcontinues with
      ⟨hrest, hrest', -⟩ | ⟨token, further, token', further', hrest, hrest', ht⟩
    · obtain rfl : rest = [] := hrest
      obtain rfl : rest' = [] := hrest'
      exact ⟨[], rfl, .nil⟩
    · obtain rfl : rest = token :: further := hrest
      obtain rfl : rest' = token' :: further' := hrest'
      have hfurther : Likeness.elsewhere.AlikeTokens further' further' :=
        List.forall₂_same.mpr fun _ _ => alikeToken_of_seen rfl
      exact ⟨token :: further', rfl, .cons ht hfurther⟩
  obtain ⟨rest'', hhead, hrest''⟩ := hother
  have hrefused : ¬ Accepted ⟨used ++ rest'', mark⟩ := not_accepted_of_refuses (hrefit rest'' hhead)
  exact fun haccepted =>
    hrefused ((accepted_iff_of_alike (List.rel_append halike hrest'')).mpr haccepted)

theorem parse_eq_of_take (h : Refuses (.program list.endMark.offset) list.tokens complaint rest)
    (htokens : list.tokens = used ++ rest) {list' : TokenList Name}
    (hsame : list'.entries.take (used.length + 1) = list.entries.take (used.length + 1)) :
    list'.parse interner =
      .error (Failure.toParseError ⟨complaint, rest⟩ list.endMark interner) := by
  obtain ⟨tokens, mark⟩ := list
  obtain ⟨tokens', mark'⟩ := list'
  obtain rfl : tokens = used ++ rest := htokens
  obtain ⟨_, hused, hrefit⟩ := h.refit
  obtain rfl := List.append_cancel_right hused
  obtain ⟨used', rest', rfl, heq, hcontinues⟩ :=
    exists_of_take_eq
      (fun token token' (h : id (Entry.ofToken token) = id (.ofToken token')) => eq_of_entry h)
      (fun token mark h => Entry.kind_ne token mark (congrArg Entry.kind h))
      (congrArg (List.map id) hsame.symm)
  obtain rfl : used = used' := List.forall₂_eq_eq_eq ▸ heq
  have hrefused (hhead : rest'.head? = rest.head?) :
      Parser.program (used ++ rest') mark'.offset = .error ⟨complaint, rest'⟩ :=
    ((hrefit rest' hhead).program_stop mark'.offset).rejects
  rcases hcontinues with
    ⟨hrest, hrest', hmark⟩ | ⟨token, further, token', further', hrest, hrest', ht⟩
  · obtain rfl : rest = [] := hrest
    obtain rfl : rest' = [] := hrest'
    have hspan : mark.span = mark'.span := congrArg Entry.span hmark
    rw [parse, hrefused rfl]
    simp only [Except.mapError, Failure.toParseError, hspan]
  · obtain rfl : rest = token :: further := hrest
    obtain rfl : rest' = token' :: further' := hrest'
    obtain rfl : token = token' := ht
    rw [parse, hrefused rfl]
    simp only [Except.mapError, Failure.toParseError]

theorem exists_written (h : Refuses (.program list.endMark.offset) list.tokens complaint rest)
    (htokens : list.tokens = used ++ rest) {text : String} (hread : list.ReadFrom text interner) :
    ∃ (text' : String) (list' : TokenList Name), list'.ReadFrom text' interner ∧
      list'.entries.take used.length = list.entries.take used.length ∧ list'.Accepted := by
  obtain ⟨tokens, mark⟩ := list
  obtain rfl : tokens = used ++ rest := htokens
  obtain ⟨front, back, htokens, rfl, -⟩ := Interner.nameTokens_eq_append hread.2
  obtain ⟨_, further, hused, hcompletes⟩ :=
    h.completes ((interner.nameTokens front).2.intern "x").1
  obtain rfl := List.append_cancel_right hused
  obtain ⟨p, ⟨d⟩⟩ := hcompletes.derives [] rfl
  obtain ⟨characters, _, cut, -, hscan, -⟩ := Lexer.exists_scan_upTo htokens
  have hfront : tokensOf (.ofList characters) = front := by
    rw [tokensOf, String.toList_ofList, hscan]
  have hcut : (Lexer.scan 0 true (String.ofList characters).toList).outcome = .ok cut := by
    rw [String.toList_ofList, hscan]
  obtain ⟨more, last, hlast, hmore, hfills⟩ := exists_scan_onLines hcut further
  have hnamed : (interner.nameTokens (tokensOf (onLines (.ofList characters) further))).1 =
      (interner.nameTokens front).1 ++ ((interner.nameTokens front).2.nameTokens more).1 := by
    rw [hmore, hfront, Interner.nameTokens_append]
  refine ⟨_, ⟨_, last⟩, ⟨hlast, hnamed⟩, by rw [take_entries, take_entries], ?_⟩
  rw [List.append_nil] at d
  refine (accepted_iff_of_alike (List.rel_append ?_ ?_)).mp
    ⟨p, (d.accepts : Parser.program _ mark.offset = _)⟩
  · exact List.forall₂_same.mpr fun _ _ => alikeToken_of_seen rfl
  · exact alikeTokens_fill (fills_nameTokens hfills)

theorem firstImpossible (htokens : list.tokens = used ++ rest)
    (h : Refuses (.program list.endMark.offset) list.tokens complaint rest) :
    list.FirstImpossible used.length := by
  obtain ⟨tokens, mark⟩ := list
  obtain rfl : tokens = used ++ rest := htokens
  refine ⟨fun list' hsame => not_accepted_of_seen h rfl hsame, ?_,
    fun text interner hlex => exists_written h rfl (readFrom_of_lex hlex)⟩
  obtain ⟨_, further, hused, hcompletes⟩ := h.completes .empty
  obtain rfl := List.append_cancel_right hused
  obtain ⟨p, ⟨d⟩⟩ := hcompletes.derives [] rfl
  exact ⟨⟨used ++ (fill .empty further ++ []), mark⟩, by rw [take_entries, take_entries], p,
    d.accepts⟩

/-- A list that is no program is refused at the first entry that no program has there. The error is
about this entry, and nothing after it has to do with the error. -/
theorem error_at_first_impossible {error : ParseError} (h : list.parse interner = .error error) :
    ∃ i complaint, i ≤ list.tokens.length ∧
      Parser.program list.tokens list.endMark.offset = .error ⟨complaint, list.tokens.drop i⟩ ∧
      list.ErrorAt interner i error ∧ list.FirstImpossible i ∧
      ∀ list' : TokenList Name, list'.entries.take (i + 1) = list.entries.take (i + 1) →
        list'.parse interner = .error error := by
  cases hprogram : Parser.program list.tokens list.endMark.offset with
  | ok p =>
      rw [parse, hprogram] at h
      cases h
  | error failure =>
      obtain ⟨complaint, rest⟩ := failure
      rw [parse, hprogram] at h
      obtain rfl := Except.error.inj h
      have hrefuses : Refuses (.program list.endMark.offset) list.tokens complaint rest :=
        program_eq_error_iff.mp hprogram
      obtain ⟨used, htokens, -⟩ := hrefuses.refit
      refine ⟨used.length, complaint, ?_, ?_, errorAt htokens hrefuses,
        firstImpossible htokens hrefuses, fun list' => parse_eq_of_take hrefuses htokens⟩
      · rw [htokens, List.length_append]
        exact Nat.le_add_right _ _
      · rw [htokens, List.drop_left]

/-- The tokens of the text "if x". -/
def unfinished : TokenList Name where
  tokens := [⟨.symbol .ifWord, ⟨0, 2⟩, .atStart⟩, ⟨.identifier ⟨1⟩, ⟨3, 4⟩, .ofGap [' '] false⟩]
  endMark := ⟨4, .ofGap [] false⟩

theorem error_at_first_impossible_of_unfinished :
    unfinished.parse .empty =
      .error (.unexpectedToken (Symbol.describe .thenWord) endOfInput (.point 4)) ∧
    ∃ i complaint, i ≤ unfinished.tokens.length ∧
      Parser.program unfinished.tokens unfinished.endMark.offset =
        .error ⟨complaint, unfinished.tokens.drop i⟩ ∧
      unfinished.ErrorAt .empty i
        (.unexpectedToken (Symbol.describe .thenWord) endOfInput (.point 4)) ∧
      unfinished.FirstImpossible i ∧
      ∀ list' : TokenList Name, list'.entries.take (i + 1) = unfinished.entries.take (i + 1) →
        list'.parse .empty =
          .error (.unexpectedToken (Symbol.describe .thenWord) endOfInput (.point 4)) :=
  ⟨rfl, error_at_first_impossible rfl⟩

end TokenList
end Bindery
