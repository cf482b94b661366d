import LispMachine.Token.Lexer

/-!
# Two sources with a line break between them

The tokens of two sources that are joined by a line break are the tokens of the first and then those of
the second, if the first source can be read to its end (`TokenRun.ofCursor_join`). A line break
continues no name, number, truth value or operator, it ends a comment, and it is layout in front of the
second source.

A comment that the first source breaks off behind a lone carriage return is the one thing that a line
break would change, and such a source cannot be read to its end.

For lexemes this is a property of what may stand behind them (`Lexeme.StandsBefore.join`): where the end of
the source stops a lexeme a line break does too, and any other character that stops it is still there.

Where a source stands changes the places of its tokens and not their kinds
(`TokenRun.kinds_of_rest`).
-/

namespace LispMachine

section
variable {d : Dialect} {cs rest more : List Char}

/-! ## Trivia -/

/-- A line break ends a comment that the end of the source ended. -/
theorem commentBody?_join {body : List Char} (h : commentBody? cs = some (body, rest)) :
    commentBody? (cs ++ '\n' :: more) = some (body, rest ++ '\n' :: more) := by
  fun_induction commentBody? cs generalizing body rest with
  | case1 =>
    cases h
    rfl
  | case2 tail =>
    cases h
    rfl
  | case3 tail =>
    cases h
    rfl
  | case4 => cases h
  | case5 c tail hline hreturn hc ih =>
    obtain ⟨⟨b, r⟩, hb, heq⟩ := Option.map_eq_some_iff.mp h
    cases heq
    rw [List.cons_append, commentBody?]
    · rw [if_neg hc, ih hb]
      rfl
    · exact hline
    -- a lone carriage return is excluded here, so none can meet the line feed that is added
    · intro tail' hcr
      cases hcr
      exact absurd rfl hc

theorem trivia_layout {c : Char} (h : isLayout c) :
    trivia d (c :: cs) = (c :: (trivia d cs).1, (trivia d cs).2) := by
  rw [trivia, if_pos h]

theorem trivia_comment {c : Char} {body : List Char} (hlayout : ¬ isLayout c)
    (hc : d.comments ∧ c = ';') (h : commentBody? cs = some (body, rest)) :
    trivia d (c :: cs) = (c :: body ++ (trivia d rest).1, (trivia d rest).2) := by
  rw [trivia, if_neg hlayout, if_pos hc]
  split
  next b r hb =>
    rw [h] at hb
    cases hb
    rfl
  next hb =>
    rw [h] at hb
    cases hb

theorem trivia_other {c : Char} (hlayout : ¬ isLayout c) (hc : ¬ (d.comments ∧ c = ';')) :
    trivia d (c :: cs) = ([], c :: cs) := by
  rw [trivia, if_neg hlayout, if_neg hc]

/-- Trivia in front of something that is no broken comment. -/
theorem trivia_join (more : List Char) {c : Char} (h : (trivia d cs).2 = c :: rest) (hc : ¬ (d.comments ∧ c = ';')) :
    trivia d (cs ++ '\n' :: more) = ((trivia d cs).1, (trivia d cs).2 ++ '\n' :: more) := by
  fun_induction trivia d cs with
  | case1 => cases h
  | case2 first tail hlayout skipped after htail ih =>
    rw [htail] at ih
    rw [List.cons_append, trivia_layout hlayout, ih h]
  | case3 first tail hlayout hfirst body next hbody skipped after hnext ih =>
    rw [hnext] at ih
    rw [List.cons_append, trivia_comment hlayout hfirst (commentBody?_join hbody), ih h]
  -- the semicolon of a comment that is broken, which the first character is not
  | case4 first tail hlayout hfirst hbody =>
    cases h
    exact absurd hfirst hc
  | case5 first tail hlayout hfirst =>
    cases h
    exact trivia_other hlayout hfirst

/-- Trivia to the end of the source. -/
theorem trivia_join_nil (more : List Char) (h : (trivia d cs).2 = []) :
    trivia d (cs ++ '\n' :: more) = (cs ++ '\n' :: (trivia d more).1, (trivia d more).2) := by
  fun_induction trivia d cs with
  | case1 => exact trivia_layout rfl
  | case2 first tail hlayout skipped after htail ih =>
    rw [htail] at ih
    rw [List.cons_append, trivia_layout hlayout, ih h]
    rfl
  | case3 first tail hlayout hfirst body next hbody skipped after hnext ih =>
    rw [hnext] at ih
    have happend := commentBody?_append hbody
    rw [List.cons_append, trivia_comment hlayout hfirst (commentBody?_join hbody), ih h, ← happend]
    simp only [List.cons_append, List.append_assoc]
  | case4 first tail hlayout hfirst hbody => cases h
  | case5 first tail hlayout hfirst => cases h

/-! ## Lexemes -/

theorem head?_join {p : Char → Bool} (h : p '\n' = false) : (cs ++ '\n' :: more).head?.any p = cs.head?.any p := by
  cases cs with
  | nil => exact h
  | cons c cs => rfl

/-- A line break is not the second character of an operator. -/
theorem ne_equals_join (h : ∀ tail, cs = '=' :: tail → False) (tail : List Char)
    (heq : cs ++ '\n' :: more = '=' :: tail) : False := by
  cases cs with
  | nil => cases heq
  | cons c cs =>
    cases heq
    exact h cs rfl

theorem mark?_join {kind : TokenKind} (h : mark? cs = some (kind, rest)) :
    mark? (cs ++ '\n' :: more) = some (kind, rest ++ '\n' :: more) := by
  revert h
  fun_cases mark? cs with
  | case9 tail hne | case10 tail hne =>
    intro h
    cases h
    rw [List.cons_append, mark?]
    -- `<` and `>` stay as they are, since the line break does not make them longer
    exact ne_equals_join hne
  | case16 =>
    intro h
    cases h
  | _ =>
    intro h
    cases h
    rfl

/-- A line break may stand behind every lexeme that the end of the source may stand behind. -/
theorem Lexeme.StandsBefore.join {l : Lexeme} (h : l.StandsBefore d rest) (more : List Char) :
    l.StandsBefore d (rest ++ '\n' :: more) := by
  have hdigit : Char.isDigit '\n' = false := by decide
  have hname : isNameChar '\n' = false := by decide
  cases h with
  | digits hne htext hafter => exact .digits hne htext ((head?_join hdigit).trans hafter)
  | word hc hrest hafter => exact .word hc hrest ((head?_join hname).trans hafter)
  | generated hd hne hrest hafter => exact .generated hd hne hrest ((head?_join hname).trans hafter)
  | string htext => exact .string htext _
  | boolean b hafter => exact .boolean b ((head?_join hname).trans hafter)
  | @mark kind _ hmark =>
    have hjoin : mark? (kind.spelling.toList ++ rest ++ '\n' :: more) = some (kind, rest ++ '\n' :: more) :=
      mark?_join hmark
    rw [List.append_assoc] at hjoin
    exact .mark hjoin

/-- A line break continues no lexeme. -/
theorem lexeme?_join {l : Lexeme} (h : lexeme? d cs = some (l, rest)) :
    lexeme? d (cs ++ '\n' :: more) = some (l, rest ++ '\n' :: more) := by
  obtain ⟨rfl, hstands⟩ := lexeme?_eq_some_iff.mp h
  rw [List.append_assoc]
  exact (hstands.join more).lexeme?_eq

/-- No lexeme starts with the semicolon of a comment. -/
theorem lexeme?_semicolon : lexeme? d (';' :: cs) = none := by
  have hmark : mark? (';' :: cs) = none := rfl
  unfold lexeme?
  simp only
  rw [if_neg (by decide), if_neg (by decide), if_neg (by decide), if_neg (by decide), hmark]
  exact if_neg fun h => absurd h.2.1 (by decide)

end

/-! ## Tokens -/

section
variable {d : Dialect} {c after : Cursor} {t : Token} {more : List Char}

/-- The cursor at the same place, with a line break and more text behind the source. -/
def Cursor.join (c : Cursor) (more : List Char) : Cursor := ⟨c.offset, c.rest ++ '\n' :: more⟩

/-- Reading a token depends on what is behind the trivia alone. -/
theorem scan_of_skipTrivia {c' : Cursor} (h : c.skipTrivia d = c'.skipTrivia d) :
    scan d c = scan d c' := by
  unfold scan
  rw [h]

/-- A token is a lexeme behind the trivia. -/
theorem scan_eq_token :
    scan d c = .token t after ↔ ∃ lexeme rest kind,
      lexeme? d (c.skipTrivia d).rest = some (lexeme, rest) ∧
      lexeme.kind (c.skipTrivia d).offset = .ok kind ∧
      after = (c.skipTrivia d).past lexeme.text rest ∧
      t = ⟨kind, (c.skipTrivia d).offset, after.offset⟩ := by
  unfold scan
  simp only
  constructor
  · intro h
    split at h
    next => cases h
    next first tail hrest =>
      split at h
      next => cases h
      next lexeme rest hlexeme =>
        split at h
        next => cases h
        next kind hkind =>
          cases h
          exact ⟨lexeme, rest, kind, hlexeme, hkind, rfl, rfl⟩
  · rintro ⟨lexeme, rest, kind, hlexeme, hkind, rfl, rfl⟩
    split
    next hnil =>
      rw [hnil] at hlexeme
      cases hlexeme
    next => simp only [hlexeme, hkind]

theorem scan_eq_finished :
    scan d c = .finished after ↔ (c.skipTrivia d).rest = [] ∧ after = c.skipTrivia d := by
  unfold scan
  simp only
  constructor
  · intro h
    split at h
    next hnil =>
      cases h
      exact ⟨hnil, rfl⟩
    next =>
      split at h
      next => cases h
      next => split at h <;> cases h
  · rintro ⟨hnil, rfl⟩
    simp only [hnil]

/-- A token of the first source is read as it was. -/
theorem scan_join (h : scan d c = .token t after) :
    scan d (c.join more) = .token t (after.join more) := by
  obtain ⟨lexeme, rest, kind, hlexeme, hkind, rfl, rfl⟩ := scan_eq_token.mp h
  have htrivia : (c.join more).skipTrivia d = (c.skipTrivia d).join more := by
    -- a lexeme stands behind the trivia, so they neither reach the end nor stop at a broken comment
    cases hrest : (trivia d c.rest).2 with
    | nil =>
      rw [Cursor.skipTrivia, Cursor.past, hrest] at hlexeme
      cases hlexeme
    | cons first tail =>
      have hfirst : ¬ (d.comments ∧ first = ';') := by
        rintro ⟨-, rfl⟩
        rw [Cursor.skipTrivia, Cursor.past, hrest, lexeme?_semicolon] at hlexeme
        cases hlexeme
      have hjoin := trivia_join more hrest hfirst
      unfold Cursor.skipTrivia Cursor.join Cursor.past
      rw [hjoin]
  rw [scan_eq_token, htrivia]
  exact ⟨lexeme, rest ++ '\n' :: more, kind, lexeme?_join hlexeme, hkind, rfl, rfl⟩

/-- Behind the last token of the first source the second one is read. -/
theorem scan_join_finished (h : scan d c = .finished after) (more : List Char) :
    scan d (c.join more) = scan d ⟨c.offset + Text.byteWidth (c.rest ++ ['\n']), more⟩ := by
  obtain ⟨hnil, -⟩ := scan_eq_finished.mp h
  have hjoin := trivia_join_nil more hnil
  refine scan_of_skipTrivia ?_
  unfold Cursor.skipTrivia Cursor.join Cursor.past
  rw [hjoin]
  -- the line break is one more character of trivia in front of the second source
  have hwidth : Text.byteWidth (c.rest ++ '\n' :: (trivia d more).1) =
      Text.byteWidth (c.rest ++ ['\n']) + Text.byteWidth (trivia d more).1 := by
    rw [← Text.byteWidth_append, List.append_assoc]
    rfl
  rw [hwidth, Nat.add_assoc]

end

/-- The kind of a lexeme is the same wherever it stands. -/
theorem Lexeme.kind_eq_ok {l : Lexeme} {offset : Nat} {kind : TokenKind}
    (h : l.kind offset = .ok kind) (offset' : Nat) : l.kind offset' = .ok kind := by
  cases l with
  | digits text =>
    unfold Lexeme.kind at h ⊢
    cases hn : Number.ofDigits? text with
    | some n =>
      simp only [hn] at h ⊢
      exact h
    | none =>
      simp only [hn] at h
      cases h
  | word | string | fixed => exact h

theorem Cursor.rest_skipTrivia {d : Dialect} {c c' : Cursor} (h : c'.rest = c.rest) :
    (c'.skipTrivia d).rest = (c.skipTrivia d).rest := by
  unfold Cursor.skipTrivia Cursor.past
  rw [h]

/-- The same text has the same token at its front, wherever it stands. -/
theorem scan_of_rest {d : Dialect} {c c' after : Cursor} {t : Token} (hrest : c'.rest = c.rest)
    (h : scan d c = .token t after) :
    ∃ t' after', scan d c' = .token t' after' ∧ t'.kind = t.kind ∧ after'.rest = after.rest := by
  obtain ⟨lexeme, rest, kind, hlexeme, hkind, rfl, rfl⟩ := scan_eq_token.mp h
  refine ⟨_, _, scan_eq_token.mpr ⟨lexeme, rest, kind, ?_, ?_, rfl, rfl⟩, rfl, rfl⟩
  · rw [Cursor.rest_skipTrivia hrest]
    exact hlexeme
  · exact lexeme.kind_eq_ok hkind _

namespace TokenRun

/-- Tokens are read from the front. -/
theorem ofCursor_eq (d : Dialect) (c : Cursor) :
    ofCursor d c =
      match scan d c with
      | .finished after => ⟨[], .eof after.offset, after⟩
      | .fault e after => ⟨[], .fault e, after⟩
      | .token t after => { ofCursor d after with tokens := t :: (ofCursor d after).tokens } := by
  rw [ofCursor]
  split
  next hscan => rw [hscan]
  next hscan => rw [hscan]
  next hscan => rw [hscan]

/-- **Two sources with a line break between them have the tokens of both.** -/
theorem ofCursor_join {d : Dialect} {c : Cursor} {stop : Nat} (more : List Char)
    (h : (ofCursor d c).ending = .eof stop) :
    ∃ offset, (ofCursor d (c.join more)).tokens =
        (ofCursor d c).tokens ++ (ofCursor d ⟨offset, more⟩).tokens ∧
      (ofCursor d (c.join more)).ending = (ofCursor d ⟨offset, more⟩).ending := by
  fun_induction ofCursor d c with
  | case1 c after hscan =>
    refine ⟨c.offset + Text.byteWidth (c.rest ++ ['\n']), ?_⟩
    rw [ofCursor_eq d (c.join more), scan_join_finished hscan more, ← ofCursor_eq]
    exact ⟨rfl, rfl⟩
  | case2 c e after hscan => cases h
  | case3 c t after hscan run ih =>
    obtain ⟨offset, htokens, hending⟩ := ih h
    refine ⟨offset, ?_, ?_⟩
    · rw [ofCursor_eq, scan_join hscan, List.cons_append, ← htokens]
    · rw [ofCursor_eq, scan_join hscan]
      exact hending

/-- Where a text stands makes no difference to the kinds of its tokens. -/
theorem kinds_of_rest {d : Dialect} {c c' : Cursor} {stop : Nat} (hrest : c'.rest = c.rest)
    (h : (ofCursor d c).ending = .eof stop) :
    (ofCursor d c').tokens.map Token.kind = (ofCursor d c).tokens.map Token.kind ∧
      ∃ stop', (ofCursor d c').ending = .eof stop' := by
  revert c'
  fun_induction ofCursor d c with
  | case1 c after hscan =>
    intro c' hrest
    have hscan' : scan d c' = .finished (c'.skipTrivia d) := by
      refine scan_eq_finished.mpr ⟨?_, rfl⟩
      rw [Cursor.rest_skipTrivia hrest]
      exact (scan_eq_finished.mp hscan).1
    rw [ofCursor_eq, hscan']
    exact ⟨rfl, _, rfl⟩
  | case2 c e after hscan => cases h
  | case3 c t after hscan run ih =>
    intro c' hrest
    obtain ⟨t', after', hscan', hkind, hafter⟩ := scan_of_rest hrest hscan
    obtain ⟨hkinds, hending⟩ := ih h hafter
    rw [ofCursor_eq, hscan', List.map_cons, List.map_cons, hkind, hkinds]
    exact ⟨rfl, hending⟩

end TokenRun

end LispMachine
