import LispMachine.Token.Lexeme
import LispMachine.Error
import LispMachine.Text.Bytes

/-!
# From text to tokens

`scan` reads one token behind the trivia in front of it, and `TokenRun.ofText` reads all of them. A
token run keeps the tokens in front of a lexical error together with the error, so that a reader of
tokens meets the error only when it comes to it.

A `Lexer` is the same thing one token at a time, with a look at the next token that does not take
it. A failed scan takes the trivia and leaves the offending character, so that it fails again in the
same way.
-/

namespace LispMachine

/-- A place in a source: the characters still to be read, and the offset of the first. -/
structure Cursor where
  offset : Nat
  rest : List Char
deriving DecidableEq, Repr

/-- The front of a source. -/
def Cursor.ofText (source : String) : Cursor := ⟨0, source.toList⟩

/-- The cursor behind a piece of the text, given what follows the piece. -/
def Cursor.past (c : Cursor) (piece rest : List Char) : Cursor :=
  ⟨c.offset + Text.byteWidth piece, rest⟩

/-- The kind of a lexeme at an offset. Digits may spell a number that does not fit. -/
def Lexeme.kind (offset : Nat) : Lexeme → Except LexError TokenKind
  | digits text =>
    match Number.ofDigits? text with
    | some n => .ok (.number n)
    | none => .error (.numberOverflow (String.ofList text) offset)
  | word name => .ok (.ofWord (String.ofList name))
  | string text => .ok (.string (String.ofList text))
  | fixed kind => .ok kind

/-- Why no lexeme starts with a character. -/
def LexError.ofChar (c : Char) (offset : Nat) : LexError :=
  if c = '\x22' then .unterminatedString offset
  else if c = '#' then .invalidHash offset
  else .unexpectedChar c offset

/-- What stands at the front of a text, and the cursor behind it. -/
inductive Scan where
  | token (t : Token) (after : Cursor)
  /-- Nothing but trivia is left. -/
  | finished (after : Cursor)
  /-- No token can be read; the cursor stands behind the trivia. -/
  | fault (e : LexError) (after : Cursor)
deriving DecidableEq, Repr

/-- The cursor behind the trivia at a cursor. -/
def Cursor.skipTrivia (d : Dialect) (c : Cursor) : Cursor :=
  c.past (trivia d c.rest).1 (trivia d c.rest).2

/-- Reads one token. -/
def scan (d : Dialect) (c : Cursor) : Scan :=
  let start := c.skipTrivia d
  match start.rest with
  | [] => .finished start
  | first :: _ =>
    match lexeme? d start.rest with
    | none => .fault (.ofChar first start.offset) start
    | some (lexeme, rest) =>
      match lexeme.kind start.offset with
      | .error e => .fault e start
      | .ok kind =>
        let after := start.past lexeme.text rest
        .token ⟨kind, start.offset, after.offset⟩ after

theorem skipTrivia_length (d : Dialect) (c : Cursor) :
    (c.skipTrivia d).rest.length ≤ c.rest.length := by
  have := congrArg List.length (trivia_append d c.rest)
  simp only [List.length_append] at this
  simp only [Cursor.skipTrivia, Cursor.past]
  omega

/-- A token is never empty, so reading one leaves less to read. -/
theorem scan_token_length {d : Dialect} {c after : Cursor} {t : Token}
    (h : scan d c = .token t after) : after.rest.length < c.rest.length := by
  have hle := skipTrivia_length d c
  unfold scan at h
  simp only at h
  split at h
  · simp at h
  split at h
  · simp at h
  next hl =>
    split at h
    · simp at h
    · obtain ⟨-, rfl⟩ := Scan.token.inj h
      exact Nat.lt_of_lt_of_le (lexeme?_length hl) hle

/-- What stands behind the last token of a run. -/
inductive Ending where
  | eof (offset : Nat)
  | fault (e : LexError)
deriving DecidableEq, Repr

/-- The tokens of a text as far as they can be read, what stands behind them, and the cursor there.
The end of the source is not among the tokens. -/
structure TokenRun where
  tokens : List Token
  ending : Ending
  cursor : Cursor
deriving DecidableEq, Repr

namespace TokenRun

/-- Reads every token from a cursor on. -/
def ofCursor (d : Dialect) (c : Cursor) : TokenRun :=
  match _h : scan d c with
  | .finished after => ⟨[], .eof after.offset, after⟩
  | .fault e after => ⟨[], .fault e, after⟩
  | .token t after =>
    let r := ofCursor d after
    { r with tokens := t :: r.tokens }
termination_by c.rest.length
decreasing_by exact scan_token_length _h

/-- Reads every token of a source. -/
def ofText (d : Dialect) (source : String) : TokenRun := ofCursor d (.ofText source)

/-- The tokens with the end of the source behind them, or the lexical error that stands there. -/
def result (r : TokenRun) : Except LexError (List Token) :=
  match r.ending with
  | .eof offset => .ok (r.tokens ++ [.ending offset])
  | .fault e => .error e

end TokenRun

/-- All tokens of a source, the end of the source last. -/
def tokenize (d : Dialect) (source : String) : Except LexError (List Token) :=
  (TokenRun.ofText d source).result

/-- A source that is read token by token, with at most one token looked at and not yet taken. -/
structure Lexer where
  dialect : Dialect
  cursor : Cursor
  lookahead : Option Token := none
deriving DecidableEq, Repr

namespace Lexer

/-- A lexer at the front of a source. -/
def ofText (d : Dialect) (source : String) : Lexer := { dialect := d, cursor := .ofText source }

/-- The offset of the first character that is not taken: the start of the token that was looked at,
if there is one. -/
def offset (l : Lexer) : Nat :=
  match l.lookahead with
  | some t => t.span.start
  | none => l.cursor.offset

/-- Takes the next token. At the end of the source that is `eof`, however often it is taken. -/
def next (l : Lexer) : Except LexError Token × Lexer :=
  match l.lookahead with
  | some t => (.ok t, { l with lookahead := none })
  | none =>
    match scan l.dialect l.cursor with
    | .token t after => (.ok t, { l with cursor := after })
    | .finished after => (.ok (.ending after.offset), { l with cursor := after })
    | .fault e after => (.error e, { l with cursor := after })

/-- Looks at the next token without taking it. -/
def peek (l : Lexer) : Except LexError Token × Lexer :=
  match l.next with
  | (.ok t, l) => (.ok t, { l with lookahead := some t })
  | (.error e, l) => (.error e, l)

/-- Takes every token that is left, the end of the source last. -/
def rest (l : Lexer) : Except LexError (List Token) × Lexer :=
  match l.lookahead with
  | some ⟨.eof, span⟩ => (.ok [⟨.eof, span⟩], { l with lookahead := none })
  | seen =>
    let r := TokenRun.ofCursor l.dialect l.cursor
    (r.result.map (seen.toList ++ ·), { l with cursor := r.cursor, lookahead := none })

end Lexer

end LispMachine
