import Bindery.Proofs.Token.Names
import Bindery.Proofs.Token.Patterns

/-!
A text is read as tokens exactly if it is a row of gaps and tokens, each gap taken as far as it goes
and each token being the longest that a pattern allows. The tokens read are those of the row, where
they stand in it, and their spellings are named in the order in which they stand there.
-/

namespace Bindery

theorem exists_of_mem_right {α β : Type} {R : α → β → Prop} {list : List α} {list' : List β}
    (h : List.Forall₂ R list list') : ∀ b ∈ list', ∃ a ∈ list, R a b := by
  induction h with
  | nil => exact fun b hb => absurd hb List.not_mem_nil
  | cons hab _ ih =>
      intro b hb
      rcases List.mem_cons.mp hb with rfl | hb
      · exact ⟨_, List.mem_cons_self, hab⟩
      · obtain ⟨a, ha, hab⟩ := ih b hb
        exact ⟨a, List.mem_cons_of_mem _ ha, hab⟩

/-- How a token is set off from what comes before it: by a gap, `first` telling whether no token
comes before that. -/
structure SetOff (gap : List Char) (first : Bool) (layout : Layout) : Prop where
  space : layout.spaceBefore = true ↔ gap ≠ []
  newline : layout.newlineBefore = true ↔ '\n' ∈ gap
  adjacent : layout.adjacent = true ↔ gap = [] ∧ first = false

theorem setOff_iff {gap : List Char} {first : Bool} {layout : Layout} :
    SetOff gap first layout ↔ layout = .ofGap gap first := by
  constructor
  · rintro ⟨hspace, hnewline, hadjacent⟩
    obtain ⟨space, newline, adjacent⟩ := layout
    simp only [Layout.ofGap, Layout.mk.injEq]
    refine ⟨?_, ?_, ?_⟩
    · rw [Bool.eq_iff_iff, hspace]
      simp
    · rw [Bool.eq_iff_iff, hnewline]
      simp
    · rw [Bool.eq_iff_iff, hadjacent]
      simp
  · rintro rfl
    constructor <;> simp [Layout.ofGap]

namespace Lexer

/-- `Reads offset first text tokens mark`: the text, which begins at the offset, is a row of gaps
and tokens up to its end. -/
inductive Reads : (offset : Nat) → (first : Bool) → (text : List Char) →
    (tokens : List (Token String)) → EndMark → Prop
  | done {offset first gap layout} : WholeGap gap [] → SetOff gap first layout →
      Reads offset first gap [] ⟨offset + utf8Length gap, layout⟩
  | token {offset first gap word kind back layout tokens mark} : WholeGap gap (word ++ back) →
      SetOff gap first layout → Longest word kind (word ++ back) →
      Reads (offset + utf8Length gap + utf8Length word) false back tokens mark →
      Reads offset first (gap ++ (word ++ back))
        (⟨kind, ⟨offset + utf8Length gap, offset + utf8Length gap + utf8Length word⟩, layout⟩ ::
          tokens) mark

variable {offset : Nat} {first : Bool} {text : List Char} {tokens : List (Token String)}
  {mark : EndMark}

theorem Lexeme.ne_nil {word : List Char} {kind : TokenKind String} (h : Lexeme word kind) :
    word ≠ [] := by
  obtain ⟨c, more, rfl, -⟩ := h.takes
  exact List.cons_ne_nil c more

theorem Lexeme.utf8Length_pos {word : List Char} {kind : TokenKind String} (h : Lexeme word kind) :
    0 < utf8Length word := by
  obtain ⟨c, more, rfl, -⟩ := h.takes
  exact Nat.add_pos_left c.utf8Size_pos _

/-- The row is what the reader reads. -/
theorem Reads.scan_eq (h : Reads offset first text tokens mark) :
    scan offset first text = ⟨tokens, .ok mark⟩ := by
  induction h with
  | @done offset first gap layout hgap hlayout =>
      have hlength := wholeGap_iff.mp hgap
      rw [List.append_nil] at hlength
      rw [Lexer.scan_eq, hlength, List.take_length, List.drop_length, setOff_iff.mp hlayout]
      rfl
  | @token offset first gap word kind back layout tokens mark hgap hlayout hlongest _ ih =>
      obtain ⟨c, word, rfl⟩ := List.exists_cons_of_ne_nil hlongest.1.ne_nil
      have hmore : word.length ≤ (word ++ back).length :=
        (List.prefix_append word back).length_le
      have hmunch : munch c (word ++ back) = .ok (kind, word.length) := by
        refine (longest_iff hmore).mp ?_
        rw [List.take_left]
        exact hlongest
      rw [List.cons_append] at hgap ⊢
      rw [scan_of_gap (wholeGap_iff.mp hgap) hmunch, ih, setOff_iff.mp hlayout]
      rfl

/-- A text that the reader reads to its end is such a row. -/
theorem reads_of_scan (h : (scan offset first text).outcome = .ok mark) :
    Reads offset first text (scan offset first text).tokens mark := by
  induction text using scan_induction generalizing offset first with
  | gap text hrest =>
      rw [scan_eq, hrest] at h ⊢
      cases h
      have htake := List.take_append_drop (gapLength false text) text
      rw [hrest, List.append_nil] at htake
      have hgap : WholeGap text [] := by
        rw [wholeGap_iff, List.append_nil]
        refine Nat.le_antisymm (gapLength_le false text) (List.drop_eq_nil_iff.mp hrest)
      rw [htake]
      exact .done hgap (setOff_iff.mpr rfl)
  | stuck text c rest misread hrest hmunch =>
      rw [scan_eq, hrest] at h
      simp only [scanFrom, hmunch] at h
      cases misread <;> cases h
  | token text c rest kind more hrest hmunch ih =>
      have hmore := (munch_append_break hmunch []).1
      have htext : text.take (gapLength false text) ++ (c :: rest.take more ++ rest.drop more) =
          text := by
        rw [List.cons_append, List.take_append_drop, ← hrest, List.take_append_drop]
      have hgap : WholeGap (text.take (gapLength false text))
          (c :: rest.take more ++ rest.drop more) := by
        rw [wholeGap_iff, htext, List.length_take_of_le (gapLength_le false text)]
      have hlongest :
          Longest (c :: rest.take more) kind (c :: rest.take more ++ rest.drop more) := by
        rw [List.cons_append, List.take_append_drop]
        exact (longest_iff hmore).mpr hmunch
      rw [scan_eq, hrest] at h ⊢
      simp only [scanFrom, hmunch] at h ⊢
      have hlayout : SetOff (text.take (gapLength false text)) first
          (.ofGap (text.take (gapLength false text)) first) := setOff_iff.mpr rfl
      have hreads := Reads.token hgap hlayout hlongest (ih h)
      rw [htext] at hreads
      exact hreads

/-- Each token stands in the text where its span says. -/
theorem Reads.exists_piece (h : Reads offset first text tokens mark) :
    ∀ token ∈ tokens, ∃ front word back, text = front ++ (word ++ back) ∧
      token.span.start = offset + utf8Length front ∧
      token.span.stop = offset + utf8Length front + utf8Length word ∧ Lexeme word token.kind := by
  induction h with
  | done => exact fun token htoken => absurd htoken List.not_mem_nil
  | @token offset first gap word kind back layout tokens mark _ _ hlongest _ ih =>
      intro token htoken
      rcases List.mem_cons.mp htoken with rfl | htoken
      · exact ⟨gap, word, back, rfl, rfl, rfl, hlongest.1⟩
      · obtain ⟨front, piece, further, rfl, hstart, hstop, hlexeme⟩ := ih token htoken
        refine ⟨gap ++ (word ++ front), piece, further, ?_, ?_, ?_, hlexeme⟩
        · simp only [List.append_assoc]
        · rw [hstart, utf8Length_append, utf8Length_append]
          omega
        · rw [hstop, utf8Length_append, utf8Length_append]
          omega

/-- No token begins before an earlier one has ended. -/
theorem Reads.pairwise (h : Reads offset first text tokens mark) :
    tokens.Pairwise fun token later => token.span.stop ≤ later.span.start := by
  induction h with
  | done => exact .nil
  | token _ _ _ hlater ih =>
      refine .cons (fun later hmem => ?_) ih
      obtain ⟨front, word, back, -, hstart, -⟩ := hlater.exists_piece later hmem
      rw [hstart]
      exact Nat.le_add_right _ _

end Lexer

/-- The spellings that the tokens of a text carry, in the order of the text. -/
def spellings (tokens : List (Token String)) : List String :=
  tokens.filterMap fun token =>
    match token.kind with
    | .identifier spelling | .text spelling => some spelling
    | .number _ | .symbol _ => none

namespace Interner

/-- The same kind of token, a name of the table standing for the spelling. -/
inductive NamedAs (table : Interner) : TokenKind String → TokenKind Name → Prop
  | identifier {spelling name} : table.get? spelling = some name →
      NamedAs table (.identifier spelling) (.identifier name)
  | text {content name} : table.get? content = some name →
      NamedAs table (.text content) (.text name)
  | number {bits} : NamedAs table (.number bits) (.number bits)
  | symbol {symbol} : NamedAs table (.symbol symbol) (.symbol symbol)

variable {interner later : Interner}

theorem namedAs_nameKind (kind : TokenKind String)
    (h : (interner.nameKind kind).2.Extends later) :
    later.NamedAs kind (interner.nameKind kind).1 := by
  cases kind with
  | identifier spelling => exact .identifier (h.get? (get?_intern interner spelling))
  | text content => exact .text (h.get? (get?_intern interner content))
  | number => exact .number
  | symbol => exact .symbol

theorem namedAs_nameTokens (tokens : List (Token String))
    (h : (interner.nameTokens tokens).2.Extends later) :
    List.Forall₂ (fun token token' => token'.span = token.span ∧ token'.layout = token.layout ∧
      later.NamedAs token.kind token'.kind) tokens (interner.nameTokens tokens).1 := by
  induction tokens generalizing interner with
  | nil => exact .nil
  | cons token rest ih =>
      have hkind := (extends_nameTokens (interner.nameKind token.kind).2 rest).trans h
      exact .cons ⟨rfl, rfl, namedAs_nameKind token.kind hkind⟩ (ih h)

/-- Spellings are named in the order of the text. -/
theorem snd_nameTokens (interner : Interner) (tokens : List (Token String)) :
    (interner.nameTokens tokens).2 =
      (spellings tokens).foldl (fun table spelling => (table.intern spelling).2) interner := by
  induction tokens generalizing interner with
  | nil => rfl
  | cons token rest ih =>
      obtain ⟨kind, span, layout⟩ := token
      cases kind <;> exact ih _

end Interner

/-- The slice of the text where a token stands: a piece that matches the token's pattern, the name
of an identifier being that of the slice, and the name of a text that of the slice without its
quotes. -/
structure Stands (text : String) (table : Interner) (token : Token Name)
    (front word back : String) : Prop where
  split : text = front ++ word ++ back
  start : front.utf8ByteSize = token.span.start
  stop : (front ++ word).utf8ByteSize = token.span.stop
  lexeme : ∃ kind, Lexer.Lexeme word.toList kind ∧ table.NamedAs kind token.kind
  identifier : ∀ name, token.kind = .identifier name → table.get? word = some name
  text : ∀ name, token.kind = .text name → ∃ quote content, quote ∈ ["\x22", "\x27"] ∧
    word = quote ++ content ++ quote ∧ table.get? content = some name

/-- What comes of a text that is a row of gaps and these tokens, up to the end. -/
structure Lexes (text : String) (before after : Interner) (tokens : List (Token String))
    (mark : EndMark) (list : TokenList Name) : Prop where
  /-- The tokens of the row in their order, under names of the table afterwards. -/
  same : List.Forall₂ (fun token token' => token'.span = token.span ∧
    token'.layout = token.layout ∧ after.NamedAs token.kind token'.kind) tokens list.tokens
  endMark : list.endMark = mark
  /-- The end of the input stands where the text ends. -/
  offset : mark.offset = text.utf8ByteSize
  nonempty : ∀ token ∈ list.tokens, token.span.start < token.span.stop
  ordered : list.tokens.Pairwise fun token later => token.span.stop ≤ later.span.start
  /-- Spans are cut at boundaries of characters. -/
  stands : ∀ token ∈ list.tokens, ∃ front word back, Stands text after token front word back
  table : after =
    (spellings tokens).foldl (fun table spelling => (table.intern spelling).2) before

/-- Where a token of the row stands, there stands the token under its name. -/
theorem exists_stands {text : String} {table : Interner} {token : Token String}
    {token' : Token Name} (hspan : token'.span = token.span)
    (hname : table.NamedAs token.kind token'.kind)
    (hpiece : ∃ front word back, text.toList = front ++ (word ++ back) ∧
      token.span.start = 0 + utf8Length front ∧
      token.span.stop = 0 + utf8Length front + utf8Length word ∧
      Lexer.Lexeme word token.kind) :
    ∃ front word back, Stands text table token' front word back := by
  obtain ⟨front, word, back, htext, hstart, hstop, hlexeme⟩ := hpiece
  obtain ⟨kind, span, layout⟩ := token
  obtain ⟨kind', span', layout'⟩ := token'
  dsimp only at hspan hname hstart hstop hlexeme
  subst hspan
  refine ⟨.ofList front, .ofList word, .ofList back, ?_, ?_, ?_, ?_, ?_, ?_⟩
  · rw [← String.toList_inj, htext]
    simp only [String.toList_append, String.toList_ofList, List.append_assoc]
  · rw [utf8ByteSize_ofList, hstart, Nat.zero_add]
  · rw [String.utf8ByteSize_append, utf8ByteSize_ofList, utf8ByteSize_ofList, hstop, Nat.zero_add]
  · rw [String.toList_ofList]
    exact ⟨kind, hlexeme, hname⟩
  · rintro name rfl
    cases hname with
    | identifier hget =>
        cases hlexeme
        exact hget
  · rintro name rfl
    cases hname with
    | text hget =>
        cases hlexeme with
        | @text quote content hquote hcontent =>
            refine ⟨.ofList [quote], .ofList content, ?_, ?_, hget⟩
            · rcases List.mem_cons.mp hquote with rfl | hquote
              · decide
              · rw [List.mem_singleton.mp hquote]
                decide
            · rw [← String.ofList_append, ← String.ofList_append]
              rfl

/-- A text is read as tokens exactly if it is not too large and a row of gaps and tokens, and what
comes of it is the tokens of the row. -/
theorem lex_munches (text : String) (interner : Interner) :
    ((∃ list, (lex text interner).1 = .ok list) ↔
      text.utf8ByteSize ≤ maxSourceLength ∧
        ∃ tokens mark, Lexer.Reads 0 true text.toList tokens mark) ∧
    ∀ list tokens mark, (lex text interner).1 = .ok list →
      Lexer.Reads 0 true text.toList tokens mark →
      Lexes text interner (lex text interner).2 tokens mark list := by
  by_cases hsize : text.utf8ByteSize ≤ maxSourceLength
  · rw [lex_eq interner hsize]
    constructor
    · constructor
      · rintro ⟨list, hlist⟩
        cases houtcome : (Lexer.scan 0 true text.toList).outcome with
        | error error =>
            rw [houtcome] at hlist
            cases hlist
        | ok mark => exact ⟨hsize, _, mark, Lexer.reads_of_scan houtcome⟩
      · rintro ⟨-, tokens, mark, hreads⟩
        rw [hreads.scan_eq]
        exact ⟨_, rfl⟩
    · intro list tokens mark hlist hreads
      rw [hreads.scan_eq] at hlist ⊢
      cases hlist
      have hnames := Interner.namedAs_nameTokens tokens
        (Interner.Extends.refl (interner.nameTokens tokens).2)
      -- Every named token comes from one of the row.
      have hsource : ∀ token' ∈ (interner.nameTokens tokens).1, ∃ token ∈ tokens,
          token'.span = token.span ∧
          (interner.nameTokens tokens).2.NamedAs token.kind token'.kind := by
        intro token' hmem
        obtain ⟨token, htoken, hsame⟩ := exists_of_mem_right hnames token' hmem
        exact ⟨token, htoken, hsame.1, hsame.2.2⟩
      have hoffset := Lexer.offset_of_scan (congrArg Lexer.Scan.outcome hreads.scan_eq)
      rw [Nat.zero_add, utf8Length_toList] at hoffset
      exact {
        same := hnames
        endMark := rfl
        offset := hoffset
        nonempty := fun token' hmem => by
          obtain ⟨token, htoken, hspan, -⟩ := hsource token' hmem
          obtain ⟨front, word, back, -, hstart, hstop, hlexeme⟩ :=
            hreads.exists_piece token htoken
          have hpos := hlexeme.utf8Length_pos
          rw [hspan, hstart, hstop]
          omega
        ordered := by
          have hspans : (tokens.map (·.span)).Pairwise fun span later => span.stop ≤ later.start :=
            List.pairwise_map.mpr hreads.pairwise
          rw [← Interner.map_span_nameTokens interner tokens] at hspans
          exact List.pairwise_map.mp hspans
        stands := fun token' hmem => by
          obtain ⟨token, htoken, hspan, hname⟩ := hsource token' hmem
          exact exists_stands hspan hname (hreads.exists_piece token htoken)
        table := Interner.snd_nameTokens interner tokens }
  · have hlex : lex text interner = (.error .sourceTooLarge, interner) :=
      if_pos (Nat.not_le.mp hsize)
    rw [hlex]
    refine ⟨⟨fun ⟨list, hlist⟩ => ?_, fun h => absurd h.1 hsize⟩, fun list _ _ hlist => ?_⟩
    · cases hlist
    · cases hlist

end Bindery
