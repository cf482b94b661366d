import LispMachine.Proofs.Seam

/-!
# The lexicon

What may stand between tokens and how each kind of token is written, said without the functions that
read them. Trivia are blanks and comments (`IsTrivia`), and a piece of text spells a kind in front of
the text that follows it (`TokenKind.Spelled`). What follows matters, since names, numbers and operators
are read as far as they go, and a comment ends where its line does.

Reading a token finds exactly these: `scan_eq_token_iff` says which token is read, and
`scan_eq_finished_iff` when there is none left. Both rest on the lexeme that stands behind the trivia
(`lexeme?_eq_some_iff`), since the same lexeme may have a kind or, as a run of digits that is too large, may
have none (`scan_eq_fault_iff`).
-/

namespace LispMachine

/-! ## Numbers and words -/

/-- An integer is a number if it is the value of one. -/
theorem Number.ofInt?_eq_some_iff {i : Int} {n : Number} : ofInt? i = some n ↔ n.toInt = i := by
  unfold ofInt? least greatest
  constructor
  · intro h
    split at h
    next hrange =>
      cases h
      exact Int64.toInt_ofInt_of_le hrange.1 (Int.lt_add_one_of_le hrange.2)
    next => cases h
  · rintro rfl
    rw [if_pos ⟨n.le_toInt, Int.le_of_lt_add_one n.toInt_lt⟩, Int64.ofInt_toInt]

/-- A name spells a reserved word if it is its name. -/
theorem Keyword.ofName?_eq_some_iff {name : String} {k : Keyword} :
    ofName? name = some k ↔ k.name = name := by
  constructor
  · intro h
    have hname : k.name == name := List.find?_some (p := fun k : Keyword => k.name == name) h
    exact eq_of_beq hname
  · rintro rfl
    cases k <;> rfl

section
variable {d : Dialect} {cs body gap rest after : List Char}

/-! ## Comments

The end of a comment is described from the text behind it, since a comment stops in front of the line ending
and leaves it to be skipped as a blank.
-/

/-- A text in front of which a line ends. -/
inductive EndsLine : List Char → Prop
  | eof : EndsLine []
  | feed (rest : List Char) : EndsLine ('\n' :: rest)
  | returnFeed (rest : List Char) : EndsLine ('\r' :: '\n' :: rest)

/-- Text without the characters of line endings. -/
def OneLine (cs : List Char) : Prop := ∀ c ∈ cs, c ≠ '\n' ∧ c ≠ '\r'

theorem OneLine.nil : OneLine [] := List.forall_mem_nil _

theorem oneLine_cons {c : Char} : OneLine (c :: cs) ↔ (c ≠ '\n' ∧ c ≠ '\r') ∧ OneLine cs :=
  List.forall_mem_cons

/-- What a comment goes through is of no effect on where it ends. -/
theorem commentBody?_append_oneLine (h : OneLine body) (cs : List Char) :
    commentBody? (body ++ cs) = (commentBody? cs).map fun (b, r) => (body ++ b, r) := by
  induction body with
  | nil => cases hcs : commentBody? cs <;> simp [hcs]
  | cons c body ih =>
    obtain ⟨⟨hfeed, hreturn⟩, hbody⟩ := oneLine_cons.mp h
    rw [List.cons_append, commentBody?]
    · rw [if_neg hreturn, ih hbody, Option.map_map]
      rfl
    · exact fun hc => absurd hc hfeed
    · exact fun _ hc => absurd hc hreturn

theorem EndsLine.commentBody?_eq (h : EndsLine rest) : commentBody? rest = some ([], rest) := by
  cases h <;> rfl

/-- A comment goes to the end of its line. -/
theorem commentBody?_eq_some_iff :
    commentBody? cs = some (body, rest) ↔ body ++ rest = cs ∧ OneLine body ∧ EndsLine rest := by
  constructor
  · intro h
    refine ⟨commentBody?_append h, ?_⟩
    fun_induction commentBody? cs generalizing body rest with
    | case1 =>
      cases h
      exact ⟨.nil, .eof⟩
    | case2 tail =>
      cases h
      exact ⟨.nil, .feed tail⟩
    | case3 tail =>
      cases h
      exact ⟨.nil, .returnFeed tail⟩
    | case4 => cases h
    | case5 c tail hfeed _ hreturn ih =>
      obtain ⟨⟨b, r⟩, hb, heq⟩ := Option.map_eq_some_iff.mp h
      cases heq
      obtain ⟨hbody, hrest⟩ := ih hb
      exact ⟨oneLine_cons.mpr ⟨⟨fun hc => hfeed hc, hreturn⟩, hbody⟩, hrest⟩
  · rintro ⟨rfl, hbody, hrest⟩
    rw [commentBody?_append_oneLine hbody, hrest.commentBody?_eq, Option.map_some]
    simp only [List.append_nil]

/-- A comment is broken by a carriage return that no line feed follows. -/
theorem commentBody?_eq_none_iff : commentBody? cs = none ↔
    ∃ body rest, body ++ '\r' :: rest = cs ∧ OneLine body ∧ rest.head? ≠ some '\n' := by
  constructor
  · intro h
    fun_induction commentBody? cs with
    | case1 | case2 | case3 => cases h
    | case4 tail hfeed hreturnFeed =>
      refine ⟨[], tail, rfl, .nil, ?_⟩
      intro hfirst
      obtain ⟨more, rfl⟩ := List.head?_eq_some_iff.mp hfirst
      exact hreturnFeed more rfl rfl
    | case5 c tail hfeed _ hreturn ih =>
      obtain ⟨body, rest, rfl, hbody, hrest⟩ := ih (Option.map_eq_none_iff.mp h)
      exact ⟨c :: body, rest, rfl, oneLine_cons.mpr ⟨⟨fun hc => hfeed hc, hreturn⟩, hbody⟩, hrest⟩
  · rintro ⟨body, rest, rfl, hbody, hrest⟩
    rw [commentBody?_append_oneLine hbody, Option.map_eq_none_iff, commentBody?]
    · exact if_pos rfl
    · exact fun hc => absurd hc (by decide)
    · rintro tail hc rfl
      exact hrest rfl

/-! ## Trivia -/

/-- Text that may stand between tokens, in front of the text that follows it. -/
inductive IsTrivia (d : Dialect) : List Char → List Char → Prop
  | nil (after : List Char) : IsTrivia d [] after
  /-- A space, a tab or a character of a line ending. -/
  | layout {c : Char} {gap after : List Char} (hc : isLayout c) (hgap : IsTrivia d gap after) :
    IsTrivia d (c :: gap) after
  /-- A semicolon and the rest of its line. -/
  | comment {body gap after : List Char} (hd : d.comments) (hbody : OneLine body)
    (hends : EndsLine (gap ++ after)) (hgap : IsTrivia d gap after) :
    IsTrivia d (';' :: body ++ gap) after

theorem isLayout_cases {c : Char} (h : isLayout c) : c = ' ' ∨ c = '\t' ∨ c = '\r' ∨ c = '\n' := by
  simpa only [isLayout, Bool.or_eq_true, decide_eq_true_eq, or_assoc] using h

/-- Blanks are trivia, whatever follows them. -/
theorem IsTrivia.of_layout (h : ∀ c ∈ gap, isLayout c) (after : List Char) : IsTrivia d gap after := by
  induction gap with
  | nil => exact .nil after
  | cons c gap ih =>
    obtain ⟨hc, hgap⟩ := List.forall_mem_cons.mp h
    exact .layout hc (ih hgap)

theorem not_isLayout_semicolon : ¬ isLayout ';' := by decide

/-- What is skipped is trivia. -/
theorem isTrivia_trivia (d : Dialect) (cs : List Char) : IsTrivia d (trivia d cs).1 (trivia d cs).2 := by
  fun_induction trivia d cs with
  | case1 => exact .nil []
  | case2 c rest hlayout skipped after hrest ih =>
    rw [hrest] at ih
    exact .layout hlayout ih
  | case3 c rest _ hc body next hbody skipped after hnext ih =>
    rw [hnext] at ih
    obtain ⟨hcomments, rfl⟩ := hc
    obtain ⟨-, hline, hends⟩ := commentBody?_eq_some_iff.mp hbody
    -- where the line ends, the trivia behind the comment start
    have happend := trivia_append d next
    rw [hnext] at happend
    exact .comment hcomments hline (happend ▸ hends) ih
  | case4 c rest => exact .nil (c :: rest)
  | case5 c rest => exact .nil (c :: rest)

/-- Trivia are skipped, with the trivia behind them. -/
theorem IsTrivia.trivia_append (h : IsTrivia d gap after) :
    trivia d (gap ++ after) = (gap ++ (trivia d after).1, (trivia d after).2) := by
  induction h with
  | nil after => rfl
  | layout hc _ ih => rw [List.cons_append, trivia_layout hc, ih, List.cons_append]
  | @comment body gap after hd hbody hends hgap ih =>
    have hcomment : commentBody? (body ++ (gap ++ after)) = some (body, gap ++ after) :=
      commentBody?_eq_some_iff.mpr ⟨rfl, hbody, hends⟩
    rw [List.cons_append, List.cons_append, List.append_assoc,
      trivia_comment not_isLayout_semicolon ⟨hd, rfl⟩ hcomment, ih]
    simp only [List.cons_append, List.append_assoc]

/-- Trivia are skipped to their end. -/
theorem trivia_trivia (d : Dialect) (cs : List Char) :
    trivia d (trivia d cs).2 = ([], (trivia d cs).2) := by
  have hskipped := (isTrivia_trivia d cs).trivia_append
  rw [LispMachine.trivia_append] at hskipped
  -- the second time the same text is cut again, and all that can be skipped stands in front of it
  have hfirst : (trivia d (trivia d cs).2).1 = [] :=
    List.self_eq_append_right.mp (congrArg Prod.fst hskipped)
  exact Prod.ext hfirst (congrArg Prod.snd hskipped).symm

/-! ## Lexemes

What a lexeme is in front of a given rest, without saying how it is found. A rest that would have made it longer
is excluded, and this is all that the longest match comes to.
-/

/-- Characters that make a word: a letter, or in the dialect of generated names an exclamation mark that
does not stand alone, and characters of names behind it. -/
inductive IsWord (d : Dialect) : List Char → Prop
  | plain {c : Char} {cs : List Char} (hc : c.isAlpha) (hcs : ∀ x ∈ cs, isNameChar x) : IsWord d (c :: cs)
  | generated {cs : List Char} (hd : d.generatedNames) (hne : cs ≠ []) (hcs : ∀ x ∈ cs, isNameChar x) :
    IsWord d ('!' :: cs)

theorem Keyword.isWord_name (k : Keyword) : IsWord d k.name.toList := by
  cases k <;> exact .plain (by decide) (List.all_eq_true.mp (by decide))

/-- The kinds that are written with one mark of punctuation. -/
def TokenKind.punctuation : List TokenKind := [.leftParen, .rightParen, .quote, .backquote, .comma]

/-- The text of a kind in front of the text that follows it. A number may have zeros in front. -/
inductive TokenKind.Spelled (d : Dialect) : TokenKind → List Char → List Char → Prop
  | number {n : Number} {digits after : List Char} (hne : digits ≠ []) (hdigits : ∀ c ∈ digits, c.isDigit)
    (hafter : after.head?.any Char.isDigit = false) (hn : n.toInt = Nat.ofDigitChars 10 digits 0) :
    Spelled d (.number n) digits after
  | identifier {name : String} {after : List Char} (hword : IsWord d name.toList)
    (hname : Keyword.ofName? name = none) (hafter : after.head?.any isNameChar = false) :
    Spelled d (.identifier name) name.toList after
  | keyword (k : Keyword) {after : List Char} (hafter : after.head?.any isNameChar = false) :
    Spelled d (.keyword k) k.name.toList after
  | string {text : String} (htext : '\x22' ∉ text.toList) (after : List Char) :
    Spelled d (.string text) ('\x22' :: text.toList ++ ['\x22']) after
  | boolean (b : Bool) {after : List Char} (hafter : after.head?.any isNameChar = false) :
    Spelled d (.boolean b) (boolean b).spelling.toList after
  | operator (o : Operator) {after : List Char} (hafter : o = .lt ∨ o = .gt → after.head? ≠ some '=') :
    Spelled d (.operator o) o.symbol.toList after
  | mark {kind : TokenKind} (hkind : kind ∈ punctuation) (after : List Char) :
    Spelled d kind kind.spelling.toList after

/-! ## Reading a lexeme -/

/-- A mark of punctuation, or an operator that is not the front of a longer one. -/
theorem mark?_cases {kind : TokenKind} (h : mark? cs = some (kind, rest)) :
    kind ∈ TokenKind.punctuation ∨
      ∃ o, kind = .operator o ∧ (o = .lt ∨ o = .gt → rest.head? ≠ some '=') := by
  revert h
  fun_cases mark? cs with
  | case1 | case2 | case3 | case4 | case5 =>
    intro h
    cases h
    exact .inl (by decide)
  | case9 tail hne | case10 tail hne =>
    intro h
    cases h
    refine .inr ⟨_, rfl, fun _ hhead => ?_⟩
    obtain ⟨more, rfl⟩ := List.head?_eq_some_iff.mp hhead
    exact hne more rfl
  | case16 =>
    intro h
    cases h
  | _ =>
    intro h
    cases h
    exact .inr ⟨_, rfl, fun hlonger => absurd hlonger (by decide)⟩

theorem mark?_operator {o : Operator} (h : o = .lt ∨ o = .gt → after.head? ≠ some '=') :
    mark? (o.symbol.toList ++ after) = some (.operator o, after) := by
  -- only these two operators are the front of a longer one
  have hne (hlonger : o = .lt ∨ o = .gt) (tail : List Char) : after ≠ '=' :: tail := by
    rintro rfl
    exact h hlonger rfl
  cases o with
  | lt =>
    show mark? ('<' :: after) = _
    rw [mark?]
    exact hne (.inl rfl)
  | gt =>
    show mark? ('>' :: after) = _
    rw [mark?]
    exact hne (.inr rfl)
  | _ => rfl

theorem mark?_punctuation {kind : TokenKind} (h : kind ∈ TokenKind.punctuation) (after : List Char) :
    mark? (kind.spelling.toList ++ after) = some (kind, after) := by
  simp only [TokenKind.punctuation, List.mem_cons, List.not_mem_nil, or_false] at h
  obtain rfl | rfl | rfl | rfl | rfl := h <;> rfl

theorem IsWord.standsBefore {word : List Char} (h : IsWord d word)
    (hafter : after.head?.any isNameChar = false) : (Lexeme.word word).StandsBefore d after := by
  cases h with
  | plain hc hcs => exact .word hc hcs hafter
  | generated hd hne hcs => exact .generated hd hne hcs hafter

/-- What spells a kind is a lexeme of this kind. -/
theorem TokenKind.Spelled.exists_lexeme {kind : TokenKind} {piece : List Char}
    (h : kind.Spelled d piece after) : ∃ l : Lexeme, l.StandsBefore d after ∧ l.text = piece ∧
      ∀ offset, l.kind offset = .ok kind := by
  cases h with
  | @number n digits after hne hdigits hafter hn =>
    refine ⟨.digits piece, .digits hne hdigits hafter, rfl, fun offset => ?_⟩
    have hvalue : Number.ofDigits? piece = some n := Number.ofInt?_eq_some_iff.mpr hn
    rw [Lexeme.kind, hvalue]
  | @identifier name after hword hname hafter =>
    refine ⟨.word name.toList, hword.standsBefore hafter, rfl, fun offset => ?_⟩
    rw [Lexeme.kind, String.ofList_toList, ofWord, hname]
  | keyword k hafter =>
    refine ⟨.word k.name.toList, k.isWord_name.standsBefore hafter, rfl, fun offset => ?_⟩
    rw [Lexeme.kind, String.ofList_toList, ofWord, Keyword.ofName?_eq_some_iff.mpr rfl]
  | @string text htext after =>
    refine ⟨.string text.toList, .string htext after, rfl, fun offset => ?_⟩
    rw [Lexeme.kind, String.ofList_toList]
  | boolean b hafter => exact ⟨.fixed (.boolean b), .boolean b hafter, rfl, fun _ => rfl⟩
  | operator o hafter =>
    exact ⟨.fixed (.operator o), .mark (mark?_operator hafter), rfl, fun _ => rfl⟩
  | mark hkind => exact ⟨.fixed kind, .mark (mark?_punctuation hkind after), rfl, fun _ => rfl⟩

/-- A word spells a reserved word or an identifier. -/
theorem IsWord.spelled {word : List Char} (h : IsWord d word)
    (hafter : after.head?.any isNameChar = false) :
    (TokenKind.ofWord (String.ofList word)).Spelled d word after := by
  obtain ⟨name, rfl⟩ : ∃ name : String, word = name.toList :=
    ⟨String.ofList word, String.toList_ofList.symm⟩
  rw [String.ofList_toList, TokenKind.ofWord]
  -- a name that is not reserved is an identifier
  cases hk : Keyword.ofName? name with
  | none => exact .identifier h hk hafter
  | some k =>
    rw [← Keyword.ofName?_eq_some_iff.mp hk]
    exact .keyword k hafter

theorem spelled_string {text : List Char} (h : '\x22' ∉ text) (after : List Char) :
    (TokenKind.string (String.ofList text)).Spelled d ('\x22' :: text ++ ['\x22']) after := by
  obtain ⟨name, rfl⟩ : ∃ name : String, text = name.toList :=
    ⟨String.ofList text, String.toList_ofList.symm⟩
  rw [String.ofList_toList]
  exact .string h after

/-- A lexeme spells its kind. -/
theorem Lexeme.StandsBefore.spelled {l : Lexeme} {kind : TokenKind} {offset : Nat}
    (h : l.StandsBefore d after) (hkind : l.kind offset = .ok kind) : kind.Spelled d l.text after := by
  cases h with
  | digits hne htext hafter =>
    rw [Lexeme.kind] at hkind
    split at hkind
    next n hn =>
      cases hkind
      exact .number hne htext hafter (Number.ofInt?_eq_some_iff.mp hn)
    next => cases hkind
  | word hc hname hafter =>
    cases hkind
    exact IsWord.spelled (.plain hc hname) hafter
  | generated hd hne hname hafter =>
    cases hkind
    exact IsWord.spelled (.generated hd hne hname) hafter
  | string htext =>
    cases hkind
    exact spelled_string htext after
  | boolean b hafter =>
    cases hkind
    exact .boolean b hafter
  | mark hmark =>
    cases hkind
    obtain hpunctuation | ⟨o, rfl, hlonger⟩ := mark?_cases hmark
    · exact .mark hpunctuation after
    · exact .operator o hlonger

theorem TokenKind.Spelled.ne_nil {kind : TokenKind} {piece : List Char} (h : kind.Spelled d piece after) :
    piece ≠ [] := by
  obtain ⟨l, hstands, rfl, -⟩ := h.exists_lexeme
  exact hstands.text_ne_nil

/-- Neither a blank nor a comment starts a lexeme. -/
theorem lexeme?_layout {c : Char} (h : isLayout c) : lexeme? d (c :: cs) = none := by
  obtain ⟨hdigit, halpha, hquote, hhash, hbang⟩ :
      ¬ c.isDigit ∧ ¬ c.isAlpha ∧ c ≠ '\x22' ∧ c ≠ '#' ∧ c ≠ '!' := by
    obtain rfl | rfl | rfl | rfl := isLayout_cases h <;> decide
  have hmark : mark? (c :: cs) = none := by
    refine Option.eq_none_iff_forall_ne_some.mpr fun (kind, rest) hmark => ?_
    obtain ⟨_, _, heq, hlayout, -⟩ := mark?_head hmark
    cases heq
    exact hlayout h
  rw [lexeme?, if_neg hdigit, if_neg halpha, if_neg hquote, if_neg hhash, hmark]
  exact if_neg fun hgenerated => hbang hgenerated.2.1

theorem trivia_of_lexeme? {l : Lexeme} (h : lexeme? d cs = some (l, after)) : trivia d cs = ([], cs) := by
  cases cs with
  | nil => cases h
  | cons c cs =>
    refine trivia_other (fun hlayout => ?_) ?_
    · rw [lexeme?_layout hlayout] at h
      cases h
    · rintro ⟨-, rfl⟩
      rw [lexeme?_semicolon] at h
      cases h

end

/-! ## Reading a token -/

section
variable {d : Dialect} {c after : Cursor} {t : Token}

theorem Cursor.skipTrivia_of_isTrivia {gap rest : List Char} (hc : c.rest = gap ++ rest)
    (hgap : IsTrivia d gap rest) (hrest : trivia d rest = ([], rest)) :
    c.skipTrivia d = ⟨c.offset + Text.byteWidth gap, rest⟩ := by
  rw [skipTrivia, hc, hgap.trivia_append, hrest, List.append_nil, past]

/-- A token is a piece of text that spells it, behind trivia. -/
theorem scan_eq_token_iff : scan d c = .token t after ↔ ∃ gap piece,
    c.rest = gap ++ (piece ++ after.rest) ∧ IsTrivia d gap (piece ++ after.rest) ∧
      t.kind.Spelled d piece after.rest ∧
      t.span = ⟨c.offset + Text.byteWidth gap, c.offset + Text.byteWidth gap + Text.byteWidth piece⟩ ∧
      after.offset = t.span.stop := by
  constructor
  · intro h
    obtain ⟨l, rest, kind, hlexeme, hkind, rfl, rfl⟩ := scan_eq_token.mp h
    obtain ⟨happend, hstands⟩ : l.text ++ rest = (trivia d c.rest).2 ∧ l.StandsBefore d rest :=
      lexeme?_eq_some_iff.mp hlexeme
    refine ⟨(trivia d c.rest).1, l.text, ?_, ?_, hstands.spelled hkind, rfl, rfl⟩
    -- the trivia and then the lexeme make up the text in front of the cursor behind the token
    · exact (happend ▸ trivia_append d c.rest).symm
    · exact happend ▸ isTrivia_trivia d c.rest
  · rintro ⟨gap, piece, hrest, hgap, hspelled, hspan, hafter⟩
    obtain ⟨l, hstands, rfl, hkind⟩ := hspelled.exists_lexeme
    have hlexeme := hstands.lexeme?_eq
    -- no trivia are left behind the gap, because a lexeme starts there
    have hskip := Cursor.skipTrivia_of_isTrivia hrest hgap (trivia_of_lexeme? hlexeme)
    refine scan_eq_token.mpr ⟨l, after.rest, t.kind, ?_, hkind _, ?_, ?_⟩
    · rw [hskip]
      exact hlexeme
    · rw [hskip]
      exact congrArg (Cursor.mk · after.rest) (hafter.trans (congrArg Span.stop hspan))
    · rw [hskip, hafter, hspan]
      exact congrArg (Token.mk t.kind) hspan

/-- Nothing is left to read in front of the end if only trivia are. -/
theorem scan_eq_finished_iff : scan d c = .finished after ↔
    IsTrivia d c.rest [] ∧ after = ⟨c.offset + Text.byteWidth c.rest, []⟩ := by
  rw [scan_eq_finished]
  constructor
  · rintro ⟨hnil, rfl⟩
    have hgap := isTrivia_trivia d c.rest
    have happend := trivia_append d c.rest
    have hrest : (trivia d c.rest).2 = [] := hnil
    rw [hrest, List.append_nil] at happend
    rw [hrest, happend] at hgap
    refine ⟨hgap, ?_⟩
    rw [Cursor.skipTrivia, hrest, happend, Cursor.past]
  · rintro ⟨hgap, rfl⟩
    have hskip := Cursor.skipTrivia_of_isTrivia (List.append_nil c.rest).symm hgap (by rw [trivia])
    exact ⟨congrArg Cursor.rest hskip, hskip.symm⟩

/-- Reading stops behind trivia, in front of a character that starts no lexeme, or of a lexeme that has no
kind. -/
theorem scan_eq_fault_iff {e : LexError} : scan d c = .fault e after ↔ after = c.skipTrivia d ∧
    ((∃ first rest, after.rest = first :: rest ∧ lexeme? d after.rest = none ∧
        e = .ofChar first after.offset) ∨
      ∃ l rest, lexeme? d after.rest = some (l, rest) ∧ l.kind after.offset = .error e) := by
  unfold scan
  simp only
  constructor
  · intro h
    split at h
    next => cases h
    next first rest hrest =>
      split at h
      next hnone =>
        cases h
        exact ⟨rfl, .inl ⟨first, rest, hrest, hnone, rfl⟩⟩
      next l rest' hlexeme =>
        split at h
        next hkind =>
          cases h
          exact ⟨rfl, .inr ⟨l, rest', hlexeme, hkind⟩⟩
        next => cases h
  · rintro ⟨rfl, ⟨first, rest, hrest, hnone, rfl⟩ | ⟨l, rest, hlexeme, hkind⟩⟩
    · split
      next hnil =>
        rw [hnil] at hrest
        cases hrest
      next hcons =>
        rw [hcons] at hrest
        cases hrest
        simp only [hnone]
    · split
      next hnil =>
        rw [hnil] at hlexeme
        cases hlexeme
      next => simp only [hlexeme, hkind]

/-- At the end of a text there is nothing to read. -/
theorem TokenRun.ofCursor_nil (d : Dialect) (offset : Nat) :
    ofCursor d ⟨offset, []⟩ = ⟨[], .eof offset, ⟨offset, []⟩⟩ := by
  rw [ofCursor_eq, scan_eq_finished_iff.mpr ⟨.nil [], rfl⟩]
  rfl

end

end LispMachine
