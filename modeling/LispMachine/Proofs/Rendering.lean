import LispMachine.Proofs.Tokenization

/-!
# Tokens written with blanks between them

Each kind of token has a spelling, and a text of spellings with blanks between them has the tokens that it
was written from (`lexing_undoes_printing`). Blanks continue nothing, so a spelling in front of them is
read as a whole; and a run of digits with a value that is too large for a number is an error wherever it
is met, with the run and its place in it.

The induction is on the text as it is written (`Spaced`), in front of any rest that continues nothing.
So it serves the whole source, with nothing behind it, and the source that goes on with a number.
-/

namespace LispMachine

open Text (byteWidth)

/-- The kinds that can be written: numbers that are not negative, names that are words and no reserved
words, strings without a double quote, and everything that is always written in the same way. -/
def TokenKind.Printable (d : Dialect) : TokenKind → Prop
  | number n => 0 ≤ n.toInt
  | identifier name => IsWord d name.toList ∧ ∀ k : Keyword, k.name ≠ name
  | string text => '\x22' ∉ text.toList
  | eof => False
  | _ => True

/-- Kinds in order, as a text with blanks between their spellings. Blanks may follow the last one. -/
inductive Spaced : List TokenKind → List Char → Prop
  | nil : Spaced [] []
  | one (kind : TokenKind) : Spaced [kind] kind.spelling.toList
  | cons (kind : TokenKind) {gap : List Char} {kinds : List TokenKind} {text : List Char} (hne : gap ≠ [])
    (hgap : ∀ c ∈ gap, isLayout c) (h : Spaced kinds text) :
    Spaced (kind :: kinds) (kind.spelling.toList ++ (gap ++ text))

/-- A text that continues nothing in front of it: it is empty, or starts with a blank. -/
def StartsBlank (cs : List Char) : Prop := ∀ c ∈ cs.head?, isLayout c

section
variable {d : Dialect} {kind : TokenKind} {kinds : List TokenKind} {gap text rest after piece : List Char}

theorem StartsBlank.any_eq_false {p : Char → Bool} (h : StartsBlank rest)
    (hp : ∀ c, isLayout c → p c = false) : rest.head?.any p = false := by
  cases rest with
  | nil => rfl
  | cons c rest => exact hp c (h c rfl)

theorem startsBlank_nil : StartsBlank [] := nofun

theorem startsBlank_append (hne : gap ≠ []) (hgap : ∀ c ∈ gap, isLayout c) (rest : List Char) :
    StartsBlank (gap ++ rest) := by
  obtain ⟨c, cs, rfl⟩ := List.exists_cons_of_ne_nil hne
  intro x hx
  cases hx
  exact hgap c List.mem_cons_self

/-- A number that is not negative is written with the digits of its value. -/
theorem Number.spelled_text {n : Number} (h : 0 ≤ n.toInt) (hrest : rest.head?.any Char.isDigit = false) :
    (TokenKind.number n).Spelled d n.text.toList rest := by
  have htext : n.text.toList = Nat.toDigits 10 n.toInt.toNat := by
    rw [Number.text, Int.repr_eq_if, if_pos h, Nat.toList_repr]
  rw [htext]
  refine .number Nat.toDigits_ne_nil ?_ hrest ?_
  · exact fun c hc => Nat.isDigit_of_mem_toDigits (by decide) (by decide) hc
  · rw [Nat.ofDigitChars_toDigits (by decide) (by decide), Int.toNat_of_nonneg h]

theorem Keyword.ofName?_eq_none_iff {name : String} : ofName? name = none ↔ ∀ k : Keyword, k.name ≠ name := by
  rw [Option.eq_none_iff_forall_ne_some]
  exact forall_congr' fun k => not_congr ofName?_eq_some_iff

theorem spelling_string (text : String) :
    (TokenKind.string text).spelling.toList = '\x22' :: text.toList ++ ['\x22'] := by
  rw [TokenKind.spelling, String.toList_append, String.toList_append]
  rfl

/-- What is written spells its kind in front of a text that does not continue it: the text starts with no
character of a name, and with no equals sign. -/
theorem TokenKind.Printable.spelled_of_head (h : kind.Printable d) (hname : rest.head?.any isNameChar = false)
    (hequals : rest.head? ≠ some '=') : kind.Spelled d kind.spelling.toList rest := by
  cases kind with
  | number n =>
    refine Number.spelled_text h ?_
    cases rest with
    | nil => rfl
    | cons c rest =>
      have hc : isNameChar c = false := hname
      simp only [isNameChar, Char.isAlphanum, Bool.or_eq_false_iff] at hc
      exact hc.1.1.1.1.1.2
  | identifier name => exact .identifier h.1 (Keyword.ofName?_eq_none_iff.mpr h.2) hname
  | string text => exact spelling_string text ▸ .string h rest
  | boolean b => exact .boolean b hname
  | keyword k => exact .keyword k hname
  | operator o => exact .operator o fun _ => hequals
  | eof => exact h.elim
  | leftParen | rightParen | quote | backquote | comma => exact .mark (by decide) rest

/-- What is written in front of blanks spells its kind. -/
theorem TokenKind.Printable.spelled (h : kind.Printable d) (hrest : StartsBlank rest) :
    kind.Spelled d kind.spelling.toList rest := by
  refine h.spelled_of_head (hrest.any_eq_false fun c hc => ?_) fun hequals => ?_
  · obtain rfl | rfl | rfl | rfl := isLayout_cases hc <;> decide
  · exact absurd (hrest _ hequals) (by decide)

/-! ## Reading what is written -/

namespace TokenRun

/-- Trivia in front of a text move it, and do nothing else. -/
theorem ofCursor_trivia (h : IsTrivia d gap rest) (offset : Nat) :
    ofCursor d ⟨offset, gap ++ rest⟩ = ofCursor d ⟨offset + byteWidth gap, rest⟩ := by
  have hskip : (Cursor.mk offset (gap ++ rest)).skipTrivia d =
      (Cursor.mk (offset + byteWidth gap) rest).skipTrivia d := by
    unfold Cursor.skipTrivia Cursor.past
    simp only [h.trivia_append, Text.byteWidth_append, Nat.add_assoc]
  rw [ofCursor_eq, scan_of_skipTrivia hskip, ← ofCursor_eq]

/-- What spells a kind is read, and then what follows it. -/
theorem ofCursor_spelled (h : kind.Spelled d piece rest) (offset : Nat) :
    ofCursor d ⟨offset, piece ++ rest⟩ =
      { ofCursor d ⟨offset + byteWidth piece, rest⟩ with
        tokens := ⟨kind, offset, offset + byteWidth piece⟩ ::
          (ofCursor d ⟨offset + byteWidth piece, rest⟩).tokens } := by
  have hscan : scan d ⟨offset, piece ++ rest⟩ =
      .token ⟨kind, offset, offset + byteWidth piece⟩ ⟨offset + byteWidth piece, rest⟩ :=
    scan_eq_token_iff.mpr ⟨[], piece, rfl, .nil _, h, rfl, rfl⟩
  rw [ofCursor_eq, hscan]

/-- A text of spellings is read, and then what follows it. -/
theorem ofCursor_spaced (hkinds : ∀ k ∈ kinds, k.Printable d) (h : Spaced kinds text)
    (hrest : kinds = [] ∨ StartsBlank rest) (offset : Nat) : ∃ tokens, tokens.map Token.kind = kinds ∧
      ofCursor d ⟨offset, text ++ rest⟩ = { ofCursor d ⟨offset + byteWidth text, rest⟩ with
        tokens := tokens ++ (ofCursor d ⟨offset + byteWidth text, rest⟩).tokens } := by
  induction h generalizing offset with
  | nil => exact ⟨[], rfl, rfl⟩
  | one kind =>
    have hblank : StartsBlank rest := hrest.resolve_left (List.cons_ne_nil _ _)
    have hspelled := (hkinds kind List.mem_cons_self).spelled hblank
    exact ⟨[_], rfl, ofCursor_spelled hspelled offset⟩
  | @cons kind gap kinds text hne hgap h ih =>
    obtain ⟨hkind, hkinds⟩ := List.forall_mem_cons.mp hkinds
    -- the gap ends the spelling in front of it, and is then skipped as trivia
    have hspelled := hkind.spelled (startsBlank_append hne hgap (text ++ rest))
    have hblank : StartsBlank rest := hrest.resolve_left (List.cons_ne_nil _ _)
    obtain ⟨tokens, rfl, hread⟩ := ih hkinds (.inr hblank)
      (offset + byteWidth kind.spelling.toList + byteWidth gap)
    refine ⟨⟨kind, offset, offset + byteWidth kind.spelling.toList⟩ :: tokens, rfl, ?_⟩
    rw [List.append_assoc, List.append_assoc, ofCursor_spelled hspelled,
      ofCursor_trivia (.of_layout hgap _), hread]
    simp only [Text.byteWidth_append, Nat.add_assoc, List.cons_append]

/-- A run of digits that is too large for a number stops the reading. -/
theorem ofCursor_overflow (hdigits : ∀ c ∈ text, c.isDigit) (hrest : rest.head?.any Char.isDigit = false)
    (hlarge : Number.greatest < Nat.ofDigitChars 10 text 0) (offset : Nat) :
    (ofCursor d ⟨offset, text ++ rest⟩).ending =
      .fault (.numberOverflow (String.ofList text) offset) := by
  have hne : text ≠ [] := by
    rintro rfl
    exact absurd hlarge (by decide)
  have hlexeme : lexeme? d (text ++ rest) = some (.digits text, rest) :=
    Lexeme.StandsBefore.lexeme?_eq (.digits hne hdigits hrest)
  have hvalue : Number.ofDigits? text = none := by
    -- the value of the digits is above the range of numbers
    refine if_neg fun hrange => ?_
    exact absurd hlarge (Int.not_lt.mpr hrange.2)
  have hkind : (Lexeme.digits text).kind offset =
      .error (.numberOverflow (String.ofList text) offset) := by
    rw [Lexeme.kind, hvalue]
  have hskip : (Cursor.mk offset (text ++ rest)).skipTrivia d = ⟨offset, text ++ rest⟩ :=
    Cursor.skipTrivia_of_isTrivia rfl (.nil _) (trivia_of_lexeme? hlexeme)
  have hscan : scan d ⟨offset, text ++ rest⟩ =
      .fault (.numberOverflow (String.ofList text) offset) ⟨offset, text ++ rest⟩ :=
    scan_eq_fault_iff.mpr ⟨hskip.symm, .inr ⟨_, _, hlexeme, hkind⟩⟩
  rw [ofCursor_eq, hscan]

end TokenRun

theorem tokenize_ofList (d : Dialect) (cs : List Char) :
    tokenize d (String.ofList cs) = (TokenRun.ofCursor d ⟨0, cs⟩).result := by
  rw [tokenize, TokenRun.ofText, Cursor.ofText, String.toList_ofList]

/-- **Lexing undoes printing.** Kinds that are written with blanks between them are read again, with the
end of the source behind them. A run of digits behind them that is too large for a number is an error with
the whole run and its place, whatever follows it. -/
theorem lexing_undoes_printing (hkinds : ∀ k ∈ kinds, k.Printable d) (htext : Spaced kinds text) :
    (∃ ts, tokenize d (String.ofList text) = .ok ts ∧ ts.map Token.kind = kinds ++ [.eof]) ∧
    ∀ gap digits rest, gap ≠ [] ∨ kinds = [] → (∀ c ∈ gap, isLayout c) → (∀ c ∈ digits, c.isDigit) →
      rest.head?.any Char.isDigit = false → Number.greatest < Nat.ofDigitChars 10 digits 0 →
      tokenize d (String.ofList (text ++ gap ++ digits ++ rest)) =
        .error (.numberOverflow (String.ofList digits) (byteWidth (text ++ gap))) := by
  constructor
  · obtain ⟨tokens, rfl, hread⟩ := TokenRun.ofCursor_spaced hkinds htext (.inr startsBlank_nil) 0
    rw [List.append_nil, TokenRun.ofCursor_nil] at hread
    refine ⟨tokens ++ [.ending (0 + byteWidth text)], ?_, List.map_append⟩
    rw [tokenize_ofList, hread, List.append_nil]
    rfl
  · intro gap digits rest hgap hblank hdigits hrest hlarge
    have hstarts : kinds = [] ∨ StartsBlank (gap ++ (digits ++ rest)) :=
      hgap.symm.imp_right fun hne => startsBlank_append hne hblank _
    obtain ⟨tokens, -, hread⟩ := TokenRun.ofCursor_spaced hkinds htext hstarts 0
    rw [TokenRun.ofCursor_trivia (.of_layout hblank _), Nat.zero_add, ← Text.byteWidth_append] at hread
    have hends : (TokenRun.ofCursor d ⟨0, text ++ (gap ++ (digits ++ rest))⟩).ending =
        .fault (.numberOverflow (String.ofList digits) (byteWidth (text ++ gap))) := by
      rw [hread]
      exact TokenRun.ofCursor_overflow hdigits hrest hlarge _
    rw [tokenize_ofList, List.append_assoc, List.append_assoc, TokenRun.result, hends]

/-- A call in the dialect of generated names, and a number behind it that is too large. -/
theorem call_reads_back :
    let d : Dialect := { generatedNames := true }
    let kinds : List TokenKind := [.leftParen, .identifier "!g1", .string "a (b", .operator .le, .number 42]
    let text := "( !g1\t\r\n\x22a (b\x22 <= 42".toList
    (∀ k ∈ kinds, k.Printable d) ∧ Spaced kinds text ∧
      (∃ ts, tokenize d (String.ofList text) = .ok ts ∧ ts.map Token.kind = kinds ++ [.eof]) ∧
      tokenize d (String.ofList (text ++ [' '] ++ "09223372036854775808".toList ++ "x".toList)) =
        .error (.numberOverflow (String.ofList "09223372036854775808".toList) 21) := by
  intro d kinds text
  have hword : IsWord d "!g1".toList := .generated rfl (by decide) (List.all_eq_true.mp (by decide))
  have hname (k : Keyword) : k.name ≠ "!g1" := by cases k <;> decide
  have hkinds : ∀ k ∈ kinds, k.Printable d := by
    refine List.forall_mem_cons.mpr ⟨trivial, List.forall_mem_cons.mpr ⟨⟨hword, hname⟩, ?_⟩⟩
    refine List.forall_mem_cons.mpr ⟨?_, List.forall_mem_cons.mpr ⟨trivial, ?_⟩⟩
    · show '\x22' ∉ "a (b".toList
      decide
    · refine List.forall_mem_singleton.mpr ?_
      show 0 ≤ (42 : Number).toInt
      decide
  have htext : Spaced kinds text := by
    have hparts : text = TokenKind.leftParen.spelling.toList ++ ([' '] ++
        ((TokenKind.identifier "!g1").spelling.toList ++ (['\t', '\r', '\n'] ++
          ((TokenKind.string "a (b").spelling.toList ++ ([' '] ++
            ((TokenKind.operator .le).spelling.toList ++ ([' '] ++
              (TokenKind.number 42).spelling.toList))))))) := by
      decide +kernel
    rw [hparts]
    have hspace : ∀ c ∈ [' '], isLayout c := List.all_eq_true.mp (by decide)
    have hbreak : ∀ c ∈ ['\t', '\r', '\n'], isLayout c := List.all_eq_true.mp (by decide)
    exact .cons _ (by decide) hspace (.cons _ (by decide) hbreak
      (.cons _ (by decide) hspace (.cons _ (by decide) hspace (.one _))))
  obtain ⟨htokens, hoverflow⟩ := lexing_undoes_printing hkinds htext
  refine ⟨hkinds, htext, htokens, ?_⟩
  exact hoverflow [' '] "09223372036854775808".toList "x".toList (.inl (by decide))
    (List.all_eq_true.mp (by decide)) (List.all_eq_true.mp (by decide)) (by decide) (by decide)

end

end LispMachine
