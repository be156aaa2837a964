import Bindery.Proofs.Token.Lines

/-!
Reading a part of a text. From where one of its tokens starts to where a later one stops, a text is
read as the tokens in between and no others: no token looks past its end for more than the character
that would make it longer.
-/

namespace Bindery

/-- The layout of the first token of a text that starts with it. -/
def Layout.atStart : Layout := .ofGap [] true

/-- The same tokens with nothing before them. -/
def atStart {α : Type} : List (Token α) → List (Token α)
  | [] => []
  | token :: rest => { token with layout := .atStart } :: rest

theorem Interner.nameTokens_atStart (interner : Interner) (tokens : List (Token String)) :
    interner.nameTokens (atStart tokens) =
      (atStart (interner.nameTokens tokens).1, (interner.nameTokens tokens).2) := by
  cases tokens with
  | nil => rfl
  | cons token rest => rfl

theorem takeWhile_of_append {α : Type} {test : α → Bool} {front back : List α}
    (h : ((front ++ back).takeWhile test).length ≤ front.length) :
    front.takeWhile test = (front ++ back).takeWhile test := by
  induction front with
  | nil => exact (List.length_eq_zero_iff.mp (Nat.le_zero.mp h)).symm
  | cons c front ih =>
      simp only [List.cons_append, List.takeWhile_cons] at h ⊢
      split
      · rename_i htest
        rw [if_pos htest] at h
        rw [ih (Nat.le_of_succ_le_succ h)]
      · rfl

namespace Lexer

variable {text front back : List Char}

theorem gapLength_of_append {inComment : Bool}
    (h : gapLength inComment (front ++ back) < front.length) :
    gapLength inComment front = gapLength inComment (front ++ back) := by
  induction front generalizing inComment with
  | nil => exact absurd h (Nat.not_lt_zero _)
  | cons c front ih =>
      cases inComment with
      | true =>
          simp only [List.cons_append, gapLength, List.length_cons] at h ⊢
          rw [ih (Nat.lt_of_succ_lt_succ h)]
      | false =>
          simp only [List.cons_append, gapLength, List.length_cons] at h ⊢
          by_cases hblank : isBlank c
          · rw [if_pos hblank] at h
            rw [if_pos hblank, if_pos hblank, ih (Nat.lt_of_succ_lt_succ h)]
          · rw [if_neg hblank] at h
            rw [if_neg hblank, if_neg hblank]
            cases front with
            | nil =>
                split at h
                · exact absurd (Nat.lt_of_succ_lt_succ h) (Nat.not_lt_zero _)
                · rename_i hslash
                  rw [if_neg hslash]
                  simp
            | cons d front =>
                rw [List.cons_append, List.head?_cons] at h
                rw [List.cons_append, List.head?_cons, List.head?_cons]
                split
                · rename_i hslash
                  rw [if_pos hslash] at h
                  rw [ih (Nat.lt_of_succ_lt_succ h)]
                  rfl
                · rfl

theorem gapLength_drop (inComment : Bool) (text : List Char) :
    gapLength false (text.drop (gapLength inComment text)) = 0 := by
  fun_induction gapLength inComment text with
  | case1 => rfl
  | case2 c rest ih | case3 c rest _ ih | case4 c rest _ _ ih => exact ih
  | case5 c rest hblank hslash =>
      simp only [List.drop_zero, gapLength, hblank, hslash, Bool.false_eq_true, if_false]

theorem fractionDigits_of_append
    (h : (if (fractionDigits (front ++ back)).isEmpty then 0 else 1) +
      (fractionDigits (front ++ back)).length ≤ front.length) :
    fractionDigits front = fractionDigits (front ++ back) := by
  cases front with
  | nil =>
      have hempty : (fractionDigits back).length = 0 := by
        rw [List.nil_append, List.length_nil] at h
        omega
      exact (List.length_eq_zero_iff.mp hempty).symm
  | cons c front =>
      by_cases hc : c = '.'
      · subst hc
        have hmore : (fractionDigits ('.' :: front ++ back)).length ≤ front.length := by
          rw [List.length_cons] at h
          split at h
          · rename_i hempty
            rw [List.isEmpty_iff.mp hempty]
            exact Nat.zero_le _
          · omega
        exact takeWhile_of_append hmore
      · rw [List.cons_append, fractionDigits_of_ne hc, fractionDigits_of_ne hc]

theorem symbol?_of_append {c : Char} {symbol : Symbol} {more : Nat}
    (h : symbol? c (front ++ back).head? = some (symbol, more)) (hmore : more ≤ front.length) :
    symbol? c front.head? = some (symbol, more) := by
  cases front with
  | cons d front => exact h
  | nil =>
      obtain rfl : more = 0 := Nat.le_zero.mp hmore
      simp only [symbol?] at h
      split at h <;> first | exact h | (split at h <;> cases h <;> rfl) | cases h

/-- A token is read as well if the text ends with it, or after it. -/
theorem munch_of_append {c : Char} {kind : TokenKind String} {more : Nat}
    (h : munch c (front ++ back) = .ok (kind, more)) (hmore : more ≤ front.length) :
    munch c front = .ok (kind, more) := by
  unfold munch at h ⊢
  split at h
  · rename_i hword
    cases h
    rw [if_pos hword, takeWhile_of_append hmore]
  · rename_i hword
    rw [if_neg hword]
    split at h
    · rename_i hdigit
      cases h
      have hwhole : ((front ++ back).takeWhile Char.isDigit).length ≤ front.length := by omega
      rw [List.drop_append_of_le_length hwhole] at hmore ⊢
      have hfraction := @fractionDigits_of_append
        (front.drop ((front ++ back).takeWhile Char.isDigit).length) back
        (by rw [List.length_drop]; omega)
      simp only [if_pos hdigit, takeWhile_of_append hwhole, hfraction]
    · rename_i hdigit
      rw [if_neg hdigit]
      split at h
      · rename_i hquote
        simp only at h
        split at h
        · cases h
          have hcontent : ((front ++ back).takeWhile (· != c)).length ≤ front.length := by omega
          simp only [if_pos hquote, takeWhile_of_append hcontent]
          rw [if_pos (by omega)]
        · cases h
      · rename_i hquote
        rw [if_neg hquote]
        split at h
        · rename_i symbol length hsymbol
          cases h
          rw [symbol?_of_append hsymbol hmore]
        · cases h

/-- From the start of one of its tokens on, a text is read as before. -/
theorem exists_scan_from {offset : Nat} {first : Bool} {before further : List (Token String)}
    {token : Token String} (h : (scan offset first text).tokens = before ++ token :: further) :
    ∃ front back, text = front ++ back ∧ token.span.start = offset + utf8Length front ∧
      (scan token.span.start true back).tokens = { token with layout := .atStart } :: further := by
  induction text using scan_induction generalizing offset first before with
  | gap text hrest =>
      rw [scan_eq, hrest] at h
      exact absurd h.symm (List.append_ne_nil_of_right_ne_nil _ (List.cons_ne_nil _ _))
  | stuck text c rest misread hrest hmunch =>
      rw [scan_eq, hrest] at h
      simp only [scanFrom, hmunch] at h
      cases misread <;>
        exact absurd h.symm (List.append_ne_nil_of_right_ne_nil _ (List.cons_ne_nil _ _))
  | token text c rest kind more hrest hmunch ih =>
      rw [scan_eq, hrest] at h
      simp only [scanFrom, hmunch] at h
      have htext := List.take_append_drop (gapLength false text) text
      cases before with
      | nil =>
          obtain ⟨rfl, rfl⟩ := List.cons.inj h
          have hgap := gapLength_drop false text
          refine ⟨_, _, htext.symm, rfl, ?_⟩
          rw [scan_eq, hgap, hrest]
          simp only [List.take_zero, List.drop_zero, scanFrom, hmunch]
          rfl
      | cons head before =>
          obtain ⟨-, htokens⟩ := List.cons.inj h
          obtain ⟨front, back, hsplit, hstart, hscan⟩ := ih htokens
          refine ⟨text.take (gapLength false text) ++ c :: rest.take more ++ front, back, ?_, ?_,
            hscan⟩
          · rw [List.append_assoc, ← hsplit, List.append_assoc, List.cons_append,
              List.take_append_drop, ← hrest, htext]
          · rw [hstart, utf8Length_append, utf8Length_append]
            omega

/-- The first token of a text, and what is read after it. -/
theorem scan_of_gap {gap word back : List Char} {c : Char} {kind : TokenKind String}
    (hgap : gapLength false (gap ++ c :: (word ++ back)) = gap.length)
    (hmunch : munch c (word ++ back) = .ok (kind, word.length)) (offset : Nat) (first : Bool) :
    scan offset first (gap ++ c :: (word ++ back)) =
      (scan (offset + utf8Length gap + utf8Length (c :: word)) false back).after
        [⟨kind, ⟨offset + utf8Length gap, offset + utf8Length gap + utf8Length (c :: word)⟩,
          .ofGap gap first⟩] := by
  rw [scan_eq, hgap, List.take_left, List.drop_left]
  simp only [scanFrom, hmunch, List.take_left, List.drop_left]
  rfl

/-- Where one of its tokens stops, a text can break off. -/
theorem exists_scan_upTo {offset : Nat} {first : Bool} {tokens further : List (Token String)}
    (h : (scan offset first text).tokens = tokens ++ further) :
    ∃ front back mark, text = front ++ back ∧ scan offset first front = ⟨tokens, .ok mark⟩ ∧
      mark.offset = (tokens.getLast?.map (·.span.stop)).getD offset := by
  have hnone (offset : Nat) (first : Bool) (text : List Char) :
      ∃ front back mark, text = front ++ back ∧ scan offset first front = ⟨[], .ok mark⟩ ∧
        mark.offset = offset :=
    ⟨[], text, ⟨offset, .ofGap [] first⟩, rfl, by rw [scan_eq]; rfl, rfl⟩
  induction text using scan_induction generalizing offset first tokens with
  | gap text hrest =>
      rw [scan_eq, hrest] at h
      obtain ⟨rfl, -⟩ := List.append_eq_nil_iff.mp h.symm
      exact hnone offset first text
  | stuck text c rest misread hrest hmunch =>
      rw [scan_eq, hrest] at h
      simp only [scanFrom, hmunch] at h
      cases misread <;>
      · obtain ⟨rfl, -⟩ := List.append_eq_nil_iff.mp h.symm
        exact hnone offset first text
  | token text c rest kind more hrest hmunch ih =>
      cases tokens with
      | nil => exact hnone offset first text
      | cons token tokens =>
          rw [scan_eq, hrest] at h
          simp only [scanFrom, hmunch] at h
          obtain ⟨rfl, htokens⟩ := List.cons.inj h
          obtain ⟨front, back, mark, hsplit, hscan, hoffset⟩ := ih htokens
          have hmore := (munch_append_break hmunch []).1
          have hrest' : rest = rest.take more ++ front ++ back := by
            rw [List.append_assoc, ← hsplit, List.take_append_drop]
          have htaken : (rest.take more).length = more := List.length_take_of_le hmore
          have hmunch' : munch c (rest.take more ++ front) =
              .ok (kind, (rest.take more).length) := by
            rw [hrest'] at hmunch
            rw [htaken]
            exact munch_of_append hmunch (by rw [List.length_append]; omega)
          -- The gap before the token is the same, for the token follows it still.
          have htext : text = text.take (gapLength false text) ++
              c :: (rest.take more ++ front) ++ back := by
            rw [List.append_assoc, List.cons_append, ← hrest', ← hrest, List.take_append_drop]
          have hlength := List.length_take_of_le (gapLength_le false text)
          have hgap : gapLength false (text.take (gapLength false text) ++
              c :: (rest.take more ++ front)) = (text.take (gapLength false text)).length := by
            rw [gapLength_of_append, ← htext, hlength]
            rw [← htext, List.length_append, hlength, List.length_cons]
            omega
          refine ⟨_, back, mark, htext, ?_, ?_⟩
          · rw [scan_of_gap hgap hmunch', hscan]
            rfl
          · rw [hoffset, List.getLast?_cons, Option.map_some, Option.getD_some]
            cases tokens.getLast? <;> rfl

theorem bounds_of_mem_scan (offset : Nat) (first : Bool) (text : List Char) :
    ∀ token ∈ (scan offset first text).tokens,
      offset ≤ token.span.start ∧ token.span.start ≤ token.span.stop := by
  induction text using scan_induction generalizing offset first with
  | gap text hrest =>
      rw [scan_eq, hrest]
      exact fun token htoken => absurd htoken List.not_mem_nil
  | stuck text c rest misread hrest hmunch =>
      rw [scan_eq, hrest]
      simp only [scanFrom, hmunch]
      cases misread <;> exact fun token htoken => absurd htoken List.not_mem_nil
  | token text c rest kind more hrest hmunch ih =>
      rw [scan_eq, hrest]
      simp only [scanFrom, hmunch]
      intro token htoken
      rcases List.mem_cons.mp htoken with rfl | htoken
      · exact ⟨Nat.le_add_right _ _, Nat.le_add_right _ _⟩
      · have hlater := ih _ _ token htoken
        exact ⟨by omega, hlater.2⟩

/-- Tokens stand one after the other. -/
theorem pairwise_scan (offset : Nat) (first : Bool) (text : List Char) :
    (scan offset first text).tokens.Pairwise fun token later =>
      token.span.start ≤ later.span.start ∧ token.span.stop ≤ later.span.stop := by
  induction text using scan_induction generalizing offset first with
  | gap text hrest =>
      rw [scan_eq, hrest]
      exact .nil
  | stuck text c rest misread hrest hmunch =>
      rw [scan_eq, hrest]
      simp only [scanFrom, hmunch]
      cases misread <;> exact .nil
  | token text c rest kind more hrest hmunch ih =>
      rw [scan_eq, hrest]
      simp only [scanFrom, hmunch]
      refine .cons (fun token htoken => ?_) (ih _ _)
      have hlater := bounds_of_mem_scan _ _ _ token htoken
      dsimp only
      omega

/-- The slice of a text from where one of its tokens starts to where a later one stops is read as
these tokens and those in between. -/
theorem exists_slice {text : String} {before piece after : List (Token String)} {span : Span}
    (h : tokensOf text = before ++ piece ++ after)
    (hstart : piece.head?.map (·.span.start) = some span.start)
    (hstop : piece.getLast?.map (·.span.stop) = some span.stop) :
    ∃ front slice back, text = front ++ slice ++ back ∧ front.utf8ByteSize = span.start ∧
      (front ++ slice).utf8ByteSize = span.stop ∧
      (∃ mark, (scan 0 true slice.toList).outcome = .ok mark) ∧
      (tokensOf slice).map (·.shift span.start) = atStart piece := by
  cases piece with
  | nil => cases hstart
  | cons token piece =>
      rw [tokensOf, List.append_assoc] at h
      have hstart : token.span.start = span.start := Option.some.inj hstart
      obtain ⟨front, further, htext, hfront, hscan⟩ := exists_scan_from h
      rw [hstart] at hfront hscan
      have hpiece : (scan span.start true further).tokens = atStart (token :: piece) ++ after :=
        hscan
      obtain ⟨slice, back, mark, rfl, hslice, hmark⟩ := exists_scan_upTo hpiece
      have hend : mark.offset = span.stop := by
        rw [atStart, List.getLast?_cons] at hmark
        rw [List.getLast?_cons] at hstop
        rw [hmark, ← Option.some.inj hstop, Option.map_some, Option.getD_some]
        cases piece.getLast? <;> rfl
      have hoffset := offset_of_scan (congrArg Scan.outcome hslice)
      have hshift := scan_shift span.start 0 true slice
      rw [Nat.zero_add, hslice] at hshift
      refine ⟨.ofList front, .ofList slice, .ofList back, ?_, ?_, ?_, ?_, ?_⟩
      · rw [← String.toList_inj, htext]
        simp only [String.toList_append, String.toList_ofList, List.append_assoc]
      · rw [utf8ByteSize_ofList, hfront, Nat.zero_add]
      · rw [String.utf8ByteSize_append, utf8ByteSize_ofList, utf8ByteSize_ofList, ← hend, hoffset,
          hfront, Nat.zero_add]
      · rw [String.toList_ofList]
        have houtcome := congrArg Scan.outcome hshift
        cases houtcome' : (scan 0 true slice).outcome with
        | ok mark => exact ⟨mark, rfl⟩
        | error error =>
            simp only [Scan.shift, houtcome'] at houtcome
            cases houtcome
      · rw [tokensOf, String.toList_ofList]
        exact (congrArg Scan.tokens hshift).symm

end Lexer
end Bindery
