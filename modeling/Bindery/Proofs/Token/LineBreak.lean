import Bindery.Proofs.Token.Names
import Bindery.Proofs.Tree.Parsed

/-!
A line break between two texts. Where the first text can be read as tokens, the second one is read
behind the line break as it is read alone: its tokens, or its first fault, stand further on, and its
first entry is set off by the line break. A table that names both texts names the second one as if
the first had been read before.
-/

namespace Bindery

/-- The same layout with a line break in the gap. -/
def Layout.broken (layout : Layout) : Layout :=
  { layout with spaceBefore := true, newlineBefore := true }

/-- What touches nothing before it is set off by a line break alone. -/
theorem Layout.broken_eq {layout : Layout} (h : layout.adjacent = false) :
    layout.broken = .afterBreak := by
  obtain ⟨spaceBefore, newlineBefore, adjacent⟩ := layout
  subst h
  rfl

namespace TokenList

variable {α : Type}

/-- The same tokens and the same end, so many bytes further on in a text. -/
def shift (distance : Nat) (list : TokenList α) : TokenList α where
  tokens := list.tokens.map (·.shift distance)
  endMark := { list.endMark with offset := list.endMark.offset + distance }

/-- The same list with a line break before its first entry, which is a token or else the end. -/
def broken (list : TokenList α) : TokenList α :=
  match list.tokens with
  | [] => { list with endMark := { list.endMark with layout := list.endMark.layout.broken } }
  | token :: rest => { list with tokens := { token with layout := token.layout.broken } :: rest }

/-- Further tokens before those of the list, and its end. -/
def after (tokens : List (Token α)) (list : TokenList α) : TokenList α :=
  { list with tokens := tokens ++ list.tokens }

end TokenList

namespace Lexer

/-- The first entry of a text touches nothing, be it a token or the end. -/
theorem adjacent_scan (offset : Nat) (text : List Char) :
    (∀ token ∈ (scan offset true text).tokens.head?, token.layout.adjacent = false) ∧
      ((scan offset true text).tokens = [] →
        ∀ mark, (scan offset true text).outcome = .ok mark → mark.layout.adjacent = false) := by
  have hfirst (gap : List Char) : (Layout.ofGap gap true).adjacent = false := Bool.and_false _
  rw [scan_eq]
  cases text.drop (gapLength false text) with
  | nil =>
      refine ⟨fun _ htoken => (by cases htoken), fun _ mark hmark => ?_⟩
      cases hmark
      exact hfirst _
  | cons c rest =>
      simp only [scanFrom]
      cases munch c rest with
      | error misread =>
          cases misread <;>
            exact ⟨fun _ htoken => (by cases htoken), fun _ _ hmark => (by cases hmark)⟩
      | ok found =>
          refine ⟨fun token htoken => ?_, fun hnil => (by cases hnil)⟩
          cases htoken
          exact hfirst _

end Lexer

/-- So the first entry of a list that is read touches nothing either. -/
theorem adjacent_of_lex {text : String} {first second : Interner} {list : TokenList Name}
    (h : lex text first = (.ok list, second)) :
    (∀ token ∈ list.tokens.head?, token.layout.adjacent = false) ∧
      (list.tokens = [] → list.endMark.layout.adjacent = false) := by
  obtain ⟨houtcome, hnamed⟩ := scan_of_lex h
  obtain ⟨htokens, hend⟩ := Lexer.adjacent_scan 0 text.toList
  have hlist : list.tokens = (first.nameTokens (tokensOf text)).1 := by rw [hnamed]
  rw [hlist, tokensOf]
  cases hscanned : (Lexer.scan 0 true text.toList).tokens with
  | nil => exact ⟨fun _ htoken => (by cases htoken), fun _ => hend hscanned _ houtcome⟩
  | cons token rest =>
      refine ⟨fun named hnamed => ?_, fun hnil => (by cases hnil)⟩
      cases hnamed
      exact htokens token (by rw [hscanned]; rfl)

/-- What is read of a text, `later` being what is read alone of the lines after its first ones. -/
structure ReadsOn (tokens : List (Token Name)) (distance : Nat)
    (later whole : Except LexError (TokenList Name) × Interner) : Prop where
  ok_iff : (∃ list, whole.1 = .ok list) ↔ ∃ list, later.1 = .ok list
  /-- The tokens of the later lines follow those before the line break. -/
  ok : ∀ list, later.1 = .ok list → whole.1 = .ok ((list.shift distance).broken.after tokens)
  error : ∀ error, later.1 = .error error → whole.1 = .error (error.shift distance)
  table : whole.2 = later.2

/-- It is enough to say what becomes of the outcome on the later lines. -/
theorem ReadsOn.of_eq {tokens : List (Token Name)} {distance : Nat}
    {later whole : Except LexError (TokenList Name) × Interner} (htable : whole.2 = later.2)
    (h : whole.1 = match later.1 with
      | .ok list => .ok ((list.shift distance).broken.after tokens)
      | .error error => .error (error.shift distance)) :
    ReadsOn tokens distance later whole := by
  obtain ⟨outcome, table⟩ := later
  cases outcome with
  | ok list =>
      refine ⟨⟨fun _ => ⟨list, rfl⟩, fun _ => ⟨_, h⟩⟩, fun list' hlist => ?_, nofun, htable⟩
      cases hlist
      exact h
  | error error =>
      refine ⟨⟨fun hwhole => ?_, nofun⟩, nofun, fun error' herror => ?_, htable⟩
      · obtain ⟨list, hlist⟩ := hwhole
        cases h.symm.trans hlist
      · cases herror
        exact h

variable {front : String} {first second : Interner} {list : TokenList Name}

/-- The tokens behind a line break, named after those before it. -/
theorem lex_append_break (h : lex front first = (.ok list, second)) {back : String}
    (hsize : (front ++ "\n" ++ back).utf8ByteSize ≤ maxSourceLength) :
    lex (front ++ "\n" ++ back) first =
      (((Lexer.scan 0 true back.toList).shift (front.utf8ByteSize + 1)).afterBreak.outcome.map
        (TokenList.mk (list.tokens ++ onNewLine ((second.nameTokens (tokensOf back)).1.map
          (·.shift (front.utf8ByteSize + 1))))),
        (second.nameTokens (tokensOf back)).2) := by
  obtain ⟨houtcome, hnamed⟩ := scan_of_lex h
  rw [lex_eq first hsize, Lexer.scan_lines houtcome]
  simp only [Lexer.Scan.after, Lexer.Scan.tokens_afterBreak, Lexer.Scan.shift,
    Interner.nameTokens_append, hnamed, Interner.nameTokens_onNewLine, Interner.nameTokens_shift]
  rfl

/-- A text that is read as tokens, a line break and a second text are read as the tokens of the
first one and then those of the second one, or as its error, further on by the bytes before them.
Only a text that is too large as a whole is not read at all. -/
theorem lex_lines (h : lex front first = (.ok list, second)) (back : String) :
    ((front ++ "\n" ++ back).utf8ByteSize ≤ maxSourceLength →
      ReadsOn list.tokens (front.utf8ByteSize + 1) (lex back second)
        (lex (front ++ "\n" ++ back) first)) ∧
    (maxSourceLength < (front ++ "\n" ++ back).utf8ByteSize →
      lex (front ++ "\n" ++ back) first = (.error .sourceTooLarge, first)) := by
  refine ⟨fun hsize => ?_, fun hsize => by rw [lex, if_pos hsize]⟩
  have hback : back.utf8ByteSize ≤ maxSourceLength := by
    rw [String.utf8ByteSize_append] at hsize
    omega
  have hlater := lex_eq second hback
  rw [lex_append_break h hsize]
  cases houtcome : (Lexer.scan 0 true back.toList).outcome with
  | error error =>
      rw [houtcome] at hlater
      rw [hlater]
      refine .of_eq rfl ?_
      simp only [Lexer.Scan.afterBreak, Lexer.Scan.shift, houtcome]
      split <;> rfl
  | ok mark =>
      rw [houtcome] at hlater
      obtain ⟨htoken, hend⟩ := adjacent_of_lex hlater
      rw [hlater]
      refine .of_eq rfl ?_
      -- The line break falls before the first token, or before the end if there is none.
      cases htokens : (Lexer.scan 0 true back.toList).tokens with
      | nil =>
          have hadjacent : mark.layout.adjacent = false := hend (by rw [htokens]; rfl)
          simp only [Lexer.Scan.afterBreak, Lexer.Scan.shift, houtcome, htokens, tokensOf,
            Interner.nameTokens, List.map_nil, Except.map, TokenList.shift, TokenList.broken,
            Layout.broken_eq hadjacent]
          rfl
      | cons token rest =>
          have hadjacent : token.layout.adjacent = false :=
            htoken { token with kind := (second.nameKind token.kind).1 } (by rw [htokens]; rfl)
          simp only [Lexer.Scan.afterBreak, Lexer.Scan.shift, houtcome, htokens, tokensOf,
            Interner.nameTokens, List.map_cons, Except.map, TokenList.shift, TokenList.broken,
            Token.shift, Layout.broken_eq hadjacent]
          rfl

/-- A comment, which the line break closes, and on the next line a text that has a line break of its
own. -/
theorem lex_lines_of_comment :
    ∃ list second, lex "a: 1 // it's" .empty = (.ok list, second) ∧
      ReadsOn list.tokens ("a: 1 // it's".utf8ByteSize + 1) (lex " 'b\nc' /" second)
        (lex ("a: 1 // it's" ++ "\n" ++ " 'b\nc' /") .empty) := by
  obtain ⟨list, hlist⟩ : ∃ list, (lex "a: 1 // it's" .empty).1 = .ok list :=
    Source.exists_of_isOk (by decide +kernel)
  have h : lex "a: 1 // it's" .empty = (.ok list, _) := Prod.ext hlist rfl
  exact ⟨list, _, h, (lex_lines h " 'b\nc' /").1 (by decide)⟩

end Bindery
