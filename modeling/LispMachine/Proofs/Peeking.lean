import LispMachine.Proofs.Acceptance
import LispMachine.Proofs.Tokenization

/-!
# Looks at the next token are invisible

A lexer answers requests for the next token, for a look at it and for everything that is left, in any
order. What it can still give is a supply: the tokens in front of it, and the end of the source or a
lexical error behind them (`Lexer.supply`). A look leaves the supply as it is, and the other requests take
from its front; behind the last token the end or the error stays (`Lexer.Sound.answer_eq`, `Supply.after_empty`).

So the tokens that are taken do not depend on the looks between them, an error is met again by every later
request, and the offset never goes back (`peeking_is_invisible`).

Supplies have no state for a look, and that is what they are for: what is said about runs of requests is
proved there by induction on the requests, and what one request does to a lexer is proved once for each
kind of request (`Lexer.Sound.next_gives`, `Lexer.Sound.peek_advances`, `Lexer.Sound.rest_advances`). The
invariant is `Lexer.Sound`: the token that was looked at ends where the cursor stands.
-/

namespace LispMachine

open Text (byteWidth)

/-! ## Requests -/

namespace Lexer

/-- What can be asked of a lexer. -/
inductive Request where
  | next
  | peek
  /-- Everything that is left. -/
  | rest
deriving DecidableEq, Repr

/-- The tokens that a request gives, or why it gives none, and the lexer behind it. -/
def answer (l : Lexer) : Request → Except LexError (List Token) × Lexer
  | .next => (l.next.1.map ([·]), l.next.2)
  | .peek => (l.peek.1.map ([·]), l.peek.2)
  | .rest => l.rest

/-- The lexer behind requests. -/
def after (l : Lexer) (rs : List Request) : Lexer := rs.foldl (fun l r => (l.answer r).2) l

/-- The tokens that requests take and give. A look takes none, and a request that fails gives none. -/
def taken (l : Lexer) : List Request → List Token
  | [] => []
  | r :: rs => (if r = .peek then [] else (l.answer r).1.toOption.getD []) ++ (l.answer r).2.taken rs

theorem after_cons (l : Lexer) (r : Request) (rs : List Request) :
    l.after (r :: rs) = (l.answer r).2.after rs := rfl

end Lexer

/-! ## Supplies

What a lexer can still give does not depend on how much of it has been scanned already. A supply is all of
it at once, and requests to a supply take from its front, whether they look at it first or not.
-/

/-- What can still be read: tokens, and what stands behind them. -/
structure Supply where
  tokens : List Token
  ending : Ending

namespace Supply
open Lexer (Request)

/-- The next token. At the end it is the mark of the end. -/
def next (s : Supply) : Except LexError Token :=
  match s.tokens, s.ending with
  | t :: _, _ => .ok t
  | [], .eof offset => .ok (.ending offset)
  | [], .fault e => .error e

/-- What a request gives. -/
def answer (s : Supply) : Request → Except LexError (List Token)
  | .next | .peek => s.next.map ([·])
  | .rest =>
    match s.ending with
    | .eof offset => .ok (s.tokens ++ [.ending offset])
    | .fault e => .error e

/-- The supply without its first tokens. -/
def drop (s : Supply) (n : Nat) : Supply := { s with tokens := s.tokens.drop n }

/-- How many tokens a request takes. -/
def used (s : Supply) : Request → Nat
  | .next => 1
  | .peek => 0
  | .rest => s.tokens.length

/-- What is left behind a request. -/
def behind (s : Supply) (r : Request) : Supply := s.drop (s.used r)

/-- What is left behind requests. -/
def after (s : Supply) (rs : List Request) : Supply := rs.foldl behind s

/-- The tokens that requests take and give. -/
def taken (s : Supply) : List Request → List Token
  | [] => []
  | r :: rs => (if r = .peek then [] else (s.answer r).toOption.getD []) ++ (s.behind r).taken rs

/-- A supply of nothing but what stands at its end. -/
def empty (ending : Ending) : Supply := ⟨[], ending⟩

section
variable {s : Supply} {rs more : List Request} {r : Request}

theorem drop_empty (ending : Ending) (n : Nat) : (empty ending).drop n = empty ending := by
  rw [drop, empty, List.drop_nil]

theorem after_empty (ending : Ending) (rs : List Request) : (empty ending).after rs = empty ending := by
  induction rs with
  | nil => rfl
  | cons r rs ih =>
    rw [after, List.foldl_cons, behind, drop_empty]
    exact ih

theorem behind_rest (s : Supply) : s.behind .rest = empty s.ending := by
  rw [behind, drop, used, List.drop_length, empty]

/-- Only how many tokens are taken matters to what is left. -/
theorem exists_after_eq_drop (s : Supply) (rs : List Request) : ∃ n, s.after rs = s.drop n := by
  induction rs generalizing s with
  | nil => exact ⟨0, rfl⟩
  | cons r rs ih =>
    obtain ⟨n, hn⟩ := ih (s.behind r)
    refine ⟨s.used r + n, ?_⟩
    show (s.behind r).after rs = _
    rw [hn, behind, drop, drop, drop, List.drop_drop]

theorem ending_after (s : Supply) (rs : List Request) : (s.after rs).ending = s.ending := by
  obtain ⟨n, hn⟩ := s.exists_after_eq_drop rs
  rw [hn, drop]

theorem after_nexts (s : Supply) (n : Nat) : s.after (.replicate n .next) = s.drop n := by
  induction n generalizing s with
  | zero => rfl
  | succ n ih =>
    show (s.behind .next).after (.replicate n .next) = _
    rw [ih, behind, drop, drop, drop, List.drop_drop, used, Nat.add_comm]

theorem after_peeks (s : Supply) (n : Nat) : s.after (.replicate n .peek) = s := by
  induction n with
  | zero => rfl
  | succ n ih => exact ih

theorem taken_append (s : Supply) (rs more : List Request) :
    s.taken (rs ++ more) = s.taken rs ++ (s.after rs).taken more := by
  induction rs generalizing s with
  | nil => rfl
  | cons r rs ih =>
    rw [List.cons_append, taken, taken, ih, List.append_assoc]
    rfl

theorem taken_fault (e : LexError) (rs : List Request) : (empty (.fault e)).taken rs = [] := by
  induction rs with
  | nil => rfl
  | cons r rs ih =>
    rw [taken, behind, drop_empty, ih]
    cases r <;> rfl

theorem taken_tokens (s : Supply) : s.taken (.replicate s.tokens.length .next) = s.tokens := by
  obtain ⟨tokens, ending⟩ := s
  induction tokens with
  | nil => rfl
  | cons t tokens ih => exact congrArg (t :: ·) ih

/-- The tokens that are taken are those that are taken one by one. -/
theorem taken_eq_taken_nexts (s : Supply) (rs : List Request) :
    s.taken rs = s.taken (.replicate (s.taken rs).length .next) := by
  induction rs generalizing s with
  | nil => rfl
  | cons r rs ih =>
    obtain ⟨tokens, ending⟩ := s
    -- at the end a request gives the mark of the end, so it takes no token and still gives one
    cases r with
    | next =>
      match tokens, ending with
      | t :: tokens, ending => exact congrArg (t :: ·) (ih ⟨tokens, ending⟩)
      | [], .eof offset => exact congrArg (.ending offset :: ·) (ih (empty (.eof offset)))
      | [], .fault e => exact ih (empty (.fault e))
    | peek => exact ih ⟨tokens, ending⟩
    | rest =>
      -- everything that is left, and then the end once more for each request behind it
      have hbehind := behind_rest ⟨tokens, ending⟩
      match ending with
      | .eof offset =>
        have htaken : taken ⟨tokens, .eof offset⟩ (.rest :: rs) =
            tokens ++ (empty (.eof offset)).taken (.next :: rs) := by
          rw [taken, hbehind]
          exact List.append_assoc tokens [.ending offset] _
        have hempty : (empty (.eof offset)).taken (.next :: rs) =
            (empty (.eof offset)).taken (.replicate ((empty (.eof offset)).taken (.next :: rs)).length .next) :=
          congrArg (Token.ending offset :: ·) (ih (empty (.eof offset)))
        have hdrop : drop ⟨tokens, .eof offset⟩ tokens.length = empty (.eof offset) := hbehind
        rw [htaken, List.length_append, ← List.replicate_append_replicate, taken_append,
          taken_tokens ⟨tokens, .eof offset⟩, after_nexts, hdrop, ← hempty]
      | .fault e =>
        have htaken : taken ⟨tokens, .fault e⟩ (.rest :: rs) = [] := by
          rw [taken, hbehind, taken_fault]
          rfl
        rw [htaken]
        rfl

/-- What gives the end stands at the end. -/
theorem eq_empty_of_eof {ts : List Token} {t : Token} (hs : ∀ t ∈ s.tokens, t.kind ≠ .eof)
    (h : s.answer r = .ok ts) (ht : t ∈ ts) (hkind : t.kind = .eof) :
    ∃ offset, s.ending = .eof offset ∧ t = .ending offset ∧ s.behind r = empty (.eof offset) := by
  obtain ⟨tokens, ending⟩ := s
  cases r with
  | next | peek =>
    match tokens, ending with
    | u :: tokens, ending =>
      cases h
      cases List.mem_singleton.mp ht
      exact absurd hkind (hs t List.mem_cons_self)
    | [], .eof offset =>
      cases h
      exact ⟨offset, rfl, List.mem_singleton.mp ht, rfl⟩
    | [], .fault e => cases h
  | rest =>
    match ending with
    | .eof offset =>
      cases h
      refine ⟨offset, rfl, ?_, ?_⟩
      · obtain ht | ht := List.mem_append.mp ht
        · exact absurd hkind (hs t ht)
        · exact List.mem_singleton.mp ht
      · exact behind_rest _
    | .fault e => cases h

/-- What fails has nothing but the error left. -/
theorem eq_empty_of_error {e : LexError} (h : s.answer r = .error e) :
    s.behind r = empty (.fault e) := by
  obtain ⟨tokens, ending⟩ := s
  cases r with
  | next | peek =>
    match tokens, ending with
    | u :: tokens, ending => cases h
    | [], .eof offset => cases h
    | [], .fault e =>
      cases h
      rfl
  | rest =>
    match ending with
    | .eof offset => cases h
    | .fault e =>
      cases h
      exact behind_rest _

theorem ending_of_answer_error {e : LexError} (h : s.answer r = .error e) : s.ending = .fault e :=
  congrArg Supply.ending (eq_empty_of_error h)

theorem eq_empty_of_next_error {e : LexError} (h : s.next = .error e) : s = empty (.fault e) :=
  eq_empty_of_error (r := .peek) (congrArg (Except.map ([·])) h)

theorem eq_of_next_ok {t : Token} (h : s.next = .ok t) :
    (∃ ts, s = ⟨t :: ts, s.ending⟩) ∨ ∃ offset, t = .ending offset ∧ s = empty (.eof offset) := by
  obtain ⟨tokens, ending⟩ := s
  match tokens, ending with
  | u :: tokens, ending =>
    cases h
    exact .inl ⟨tokens, rfl⟩
  | [], .eof offset =>
    cases h
    exact .inr ⟨offset, rfl, rfl⟩
  | [], .fault e => cases h

/-- Everything that is left starts with the next token. -/
theorem head?_of_answer_rest {t : Token} {ts : List Token} (hnext : s.next = .ok t)
    (hrest : s.answer .rest = .ok ts) : ts.head? = some t := by
  obtain ⟨tokens, ending⟩ := s
  match tokens, ending with
  | u :: tokens, .eof offset | [], .eof offset =>
    cases hnext
    cases hrest
    rfl
  | _, .fault e => cases hrest

theorem answer_empty_eof (offset : Nat) (r : Request) :
    (empty (.eof offset)).answer r = .ok [.ending offset] := by
  cases r <;> rfl

theorem answer_empty_fault (e : LexError) (r : Request) : (empty (.fault e)).answer r = .error e := by
  cases r <;> rfl

end

end Supply

/-! ## What scans do to the cursor -/

/-- A cursor that stands in a text: what it has passed and what it has not are the text. -/
def Cursor.Within (text : List Char) (c : Cursor) : Prop :=
  ∃ front, front ++ c.rest = text ∧ byteWidth front = c.offset

section
variable {d : Dialect} {text : List Char} {c after : Cursor} {t : Token} {e : LexError}

theorem Cursor.Within.past {piece rest : List Char} (h : c.Within text) (hrest : c.rest = piece ++ rest) :
    (c.past piece rest).Within text := by
  obtain ⟨front, htext, hwidth⟩ := h
  refine ⟨front ++ piece, ?_, ?_⟩
  · rw [List.append_assoc, ← htext, hrest]
    rfl
  · rw [Text.byteWidth_append, hwidth]
    rfl

theorem Cursor.Within.offset_le (h : c.Within text) : c.offset ≤ byteWidth text := by
  obtain ⟨front, rfl, hwidth⟩ := h
  rw [Text.byteWidth_append, hwidth]
  exact Nat.le_add_right _ _

theorem Cursor.Within.skipTrivia (h : c.Within text) : (c.skipTrivia d).Within text :=
  h.past (trivia_append d c.rest).symm

theorem Cursor.offset_le_skipTrivia (d : Dialect) (c : Cursor) : c.offset ≤ (c.skipTrivia d).offset :=
  Nat.le_add_right _ _

theorem Cursor.skipTrivia_skipTrivia (d : Dialect) (c : Cursor) :
    (c.skipTrivia d).skipTrivia d = c.skipTrivia d :=
  Cursor.skipTrivia_of_isTrivia (List.nil_append _).symm (.nil _) (trivia_trivia d c.rest)

/-- A token stands behind the cursor it is read from, and the cursor goes behind it. -/
theorem scan_token_places (hscan : scan d c = .token t after) : c.offset ≤ t.span.start ∧
    t.span.start ≤ t.span.stop ∧ after.offset = t.span.stop ∧ t.kind ≠ .eof := by
  obtain ⟨gap, piece, -, -, hpiece, hspan, hafter⟩ := scan_eq_token_iff.mp hscan
  rw [hspan]
  refine ⟨Nat.le_add_right _ _, Nat.le_add_right _ _, hspan ▸ hafter, ?_⟩
  rintro heof
  rw [heof] at hpiece
  cases hpiece with
  | mark hkind => exact absurd hkind (by decide)

theorem Cursor.Within.scan_token (h : c.Within text) (hscan : scan d c = .token t after) :
    after.Within text := by
  obtain ⟨l, rest, kind, hlexeme, -, rfl, -⟩ := scan_eq_token.mp hscan
  exact h.skipTrivia.past (lexeme?_append hlexeme).symm

/-- An error is met again. -/
theorem ofCursor_of_fault (hscan : scan d c = .fault e after) :
    TokenRun.ofCursor d after = ⟨[], .fault e, after⟩ := by
  obtain ⟨rfl, -⟩ := scan_eq_fault_iff.mp hscan
  rw [TokenRun.ofCursor_eq, scan_of_skipTrivia (c.skipTrivia_skipTrivia d), hscan]

/-- Where the tokens come to an end there is nothing but what stands there. -/
theorem ofCursor_cursor (d : Dialect) (c : Cursor) : TokenRun.ofCursor d (TokenRun.ofCursor d c).cursor =
    ⟨[], (TokenRun.ofCursor d c).ending, (TokenRun.ofCursor d c).cursor⟩ := by
  fun_induction TokenRun.ofCursor d c with
  | case1 c after hscan =>
    obtain ⟨-, rfl⟩ := scan_eq_finished_iff.mp hscan
    exact TokenRun.ofCursor_nil d _
  | case2 c e after hscan => exact ofCursor_of_fault hscan
  | case3 c t after hscan run ih => exact ih

theorem Cursor.Within.ofCursor (h : c.Within text) :
    (TokenRun.ofCursor d c).cursor.Within text ∧ c.offset ≤ (TokenRun.ofCursor d c).cursor.offset := by
  fun_induction TokenRun.ofCursor d c with
  | case1 c after hscan =>
    obtain ⟨-, rfl⟩ := scan_eq_finished.mp hscan
    exact ⟨h.skipTrivia, c.offset_le_skipTrivia d⟩
  | case2 c e after hscan =>
    obtain ⟨rfl, -⟩ := scan_eq_fault_iff.mp hscan
    exact ⟨h.skipTrivia, c.offset_le_skipTrivia d⟩
  | case3 c t after hscan run ih =>
    obtain ⟨hwithin, hle⟩ := ih (h.scan_token hscan)
    obtain ⟨hstart, hstop, hafter, -⟩ := scan_token_places hscan
    refine ⟨hwithin, Nat.le_trans ?_ hle⟩
    omega

end

/-! ## The supply of a lexer

The supply is found by scanning on from where the lexer stands, behind what it has kept. A request that makes
the lexer scan moves tokens from the text to what is kept, and so changes nothing here.
-/

namespace Lexer

/-- What a lexer can still give. -/
def supply (l : Lexer) : Supply :=
  let run := TokenRun.ofCursor l.dialect l.cursor
  match l.lookahead with
  | none => ⟨run.tokens, run.ending⟩
  | some t => if t.kind = .eof then .empty (.eof t.span.start) else ⟨t :: run.tokens, run.ending⟩

/-- A lexer that has read a token last. -/
def StandsBehind (l : Lexer) (t : Token) : Prop :=
  t.span.start ≤ t.span.stop ∧ t.span.stop = l.cursor.offset ∧
    (t.kind = .eof → t = .ending l.cursor.offset ∧ l.cursor.rest = [])

/-- A lexer that stands in a text, behind the token that was looked at. -/
structure Sound (text : List Char) (l : Lexer) : Prop where
  cursor : l.cursor.Within text
  lookahead : ∀ t ∈ l.lookahead, l.StandsBehind t

/-- What a request does to a lexer. -/
structure Advances (text : List Char) (l l' : Lexer) (left : Supply) : Prop where
  sound : l'.Sound text
  supply : l'.supply = left
  offset : l.offset ≤ l'.offset

/-- What a request for the next token does to a lexer. -/
structure Gives (text : List Char) (l : Lexer) (result : Except LexError Token) (l' : Lexer) : Prop where
  given : result = l.supply.next
  lookahead : l'.lookahead = none
  advances : l.Advances text l' (l.supply.behind .next)
  places : ∀ t, result = .ok t → l.offset ≤ t.span.start ∧ l'.StandsBehind t

section
variable {text : List Char} {l : Lexer} {t : Token}

theorem sound_ofText (d : Dialect) (source : String) : (ofText d source).Sound source.toList :=
  ⟨⟨[], rfl, rfl⟩, nofun⟩

/-- The tokens in a supply do not mark the end. -/
theorem supply_ne_eof (l : Lexer) : ∀ t ∈ l.supply.tokens, t.kind ≠ .eof := by
  unfold supply
  split
  next => exact TokenRun.kind_ne_eof _ _
  next t _ =>
    split
    next => exact List.forall_mem_nil _
    next hkind => exact List.forall_mem_cons.mpr ⟨hkind, TokenRun.kind_ne_eof _ _⟩

theorem supply_none (d : Dialect) (c : Cursor) : (Lexer.mk d c none).supply =
    ⟨(TokenRun.ofCursor d c).tokens, (TokenRun.ofCursor d c).ending⟩ := rfl

theorem supply_eof {d : Dialect} {c : Cursor} (h : t.kind = .eof) :
    (Lexer.mk d c (some t)).supply = .empty (.eof t.span.start) := if_pos h

theorem supply_some {d : Dialect} {c : Cursor} (h : t.kind ≠ .eof) : (Lexer.mk d c (some t)).supply =
    ⟨t :: (TokenRun.ofCursor d c).tokens, (TokenRun.ofCursor d c).ending⟩ := if_neg h

theorem supply_eq {d : Dialect} {c : Cursor} {lookahead : Option Token} (h : ∀ t ∈ lookahead, t.kind ≠ .eof) :
    (Lexer.mk d c lookahead).supply =
      ⟨lookahead.toList ++ (TokenRun.ofCursor d c).tokens, (TokenRun.ofCursor d c).ending⟩ := by
  cases lookahead with
  | none => rfl
  | some t => exact supply_some (h t rfl)

/-- The token that was looked at starts in front of the cursor. -/
theorem Sound.offset_le_cursor (h : l.Sound text) : l.offset ≤ l.cursor.offset := by
  obtain ⟨d, c, lookahead⟩ := l
  cases lookahead with
  | none => exact Nat.le_refl _
  | some t =>
    obtain ⟨hspan, hstop, -⟩ := h.lookahead t rfl
    exact Nat.le_trans hspan (Nat.le_of_eq hstop)

theorem Sound.of_cursor {d : Dialect} {c : Cursor} (h : c.Within text) : (Lexer.mk d c none).Sound text :=
  ⟨h, nofun⟩

/-- The token that was looked at is taken. -/
theorem Sound.gives_looked {d : Dialect} {c : Cursor} (h : (Lexer.mk d c (some t)).Sound text) :
    (Lexer.mk d c (some t)).Gives text (.ok t) ⟨d, c, none⟩ := by
  obtain ⟨hspan, hstop, heof⟩ := h.lookahead t rfl
  have hleft : (Lexer.mk d c none).supply = (Lexer.mk d c (some t)).supply.behind .next ∧
      (Lexer.mk d c (some t)).supply.next = .ok t := by
    -- the mark of the end that was looked at is given, and a new one is what is left
    by_cases hkind : t.kind = .eof
    · obtain ⟨ht, hnil⟩ := heof hkind
      obtain ⟨offset, rest⟩ := c
      cases hnil
      rw [supply_eof hkind, supply_none, TokenRun.ofCursor_nil, ht]
      exact ⟨rfl, rfl⟩
    · rw [supply_some hkind]
      exact ⟨rfl, rfl⟩
  refine ⟨hleft.2.symm, rfl, ⟨.of_cursor h.cursor, hleft.1, h.offset_le_cursor⟩, fun u hu => ?_⟩
  cases hu
  exact ⟨Nat.le_refl _, hspan, hstop, heof⟩

/-- A token is read. -/
theorem gives_token {d : Dialect} {c after : Cursor} (hc : c.Within text) (hscan : scan d c = .token t after) :
    (Lexer.mk d c none).Gives text (.ok t) ⟨d, after, none⟩ := by
  obtain ⟨hstart, hspan, hafter, hkind⟩ := scan_token_places hscan
  have hsupply : (Lexer.mk d c none).supply =
      ⟨t :: (TokenRun.ofCursor d after).tokens, (TokenRun.ofCursor d after).ending⟩ := by
    rw [supply_none, TokenRun.ofCursor_eq, hscan]
  refine ⟨hsupply ▸ rfl, rfl, ⟨.of_cursor (hc.scan_token hscan), hsupply ▸ rfl, ?_⟩, fun u hu => ?_⟩
  · calc c.offset ≤ t.span.start := hstart
      _ ≤ t.span.stop := hspan
      _ = after.offset := hafter.symm
  · cases hu
    exact ⟨hstart, hspan, hafter.symm, fun heof => absurd heof hkind⟩

/-- The end is met. -/
theorem gives_ending {d : Dialect} {c after : Cursor} (hc : c.Within text)
    (hscan : scan d c = .finished after) :
    (Lexer.mk d c none).Gives text (.ok (.ending after.offset)) ⟨d, after, none⟩ := by
  have hsupply : (Lexer.mk d c none).supply = .empty (.eof after.offset) := by
    rw [supply_none, TokenRun.ofCursor_eq, hscan]
    rfl
  obtain ⟨-, rfl⟩ := scan_eq_finished.mp hscan
  obtain ⟨-, hafter⟩ := scan_eq_finished_iff.mp hscan
  have hstart := c.offset_le_skipTrivia d
  refine ⟨hsupply ▸ rfl, rfl, ⟨.of_cursor hc.skipTrivia, ?_, hstart⟩, fun u hu => ?_⟩
  · rw [hsupply, supply_none, hafter, TokenRun.ofCursor_nil]
    rfl
  · cases hu
    exact ⟨hstart, Nat.le_refl _, rfl, fun _ => ⟨rfl, congrArg Cursor.rest hafter⟩⟩

/-- An error is met. -/
theorem gives_error {d : Dialect} {c after : Cursor} {e : LexError} (hc : c.Within text)
    (hscan : scan d c = .fault e after) :
    (Lexer.mk d c none).Gives text (.error e) ⟨d, after, none⟩ := by
  have hsupply : (Lexer.mk d c none).supply = .empty (.fault e) := by
    rw [supply_none, TokenRun.ofCursor_eq, hscan]
    rfl
  -- the cursor stays in front of what could not be read
  have hagain := ofCursor_of_fault hscan
  obtain ⟨rfl, -⟩ := scan_eq_fault_iff.mp hscan
  refine ⟨hsupply ▸ rfl, rfl, ⟨.of_cursor hc.skipTrivia, ?_, c.offset_le_skipTrivia d⟩, nofun⟩
  rw [hsupply, supply_none, hagain]
  rfl

theorem Sound.next_gives (h : l.Sound text) : l.Gives text l.next.1 l.next.2 := by
  obtain ⟨d, c, lookahead⟩ := l
  have hc : c.Within text := h.cursor
  cases lookahead with
  | some t => exact h.gives_looked
  | none =>
    cases hscan : scan d c with
    | token t after =>
      have hnext : (Lexer.mk d c none).next = (.ok t, ⟨d, after, none⟩) := by
        simp only [next, hscan]
      exact hnext ▸ gives_token hc hscan
    | finished after =>
      have hnext : (Lexer.mk d c none).next = (.ok (.ending after.offset), ⟨d, after, none⟩) := by
        simp only [next, hscan]
      exact hnext ▸ gives_ending hc hscan
    | fault e after =>
      have hnext : (Lexer.mk d c none).next = (.error e, ⟨d, after, none⟩) := by
        simp only [next, hscan]
      exact hnext ▸ gives_error hc hscan

/-- A look keeps the token that it is given. -/
theorem Gives.looked {d : Dialect} {c : Cursor} (h : l.Gives text (.ok t) ⟨d, c, none⟩) :
    l.Advances text ⟨d, c, some t⟩ l.supply := by
  obtain ⟨hstart, hbehind⟩ := h.places t rfl
  refine ⟨⟨h.advances.sound.cursor, ?_⟩, ?_, hstart⟩
  · intro u hu
    cases hu
    exact hbehind
  · have hleft := h.advances.supply
    rw [supply_none] at hleft
    obtain ⟨ts, hsupply⟩ | ⟨offset, rfl, hsupply⟩ := Supply.eq_of_next_ok h.given.symm
    · have hkind : t.kind ≠ .eof := l.supply_ne_eof t (hsupply ▸ List.mem_cons_self)
      rw [hsupply] at hleft
      obtain ⟨htokens, hends⟩ := Supply.mk.inj hleft
      rw [supply_some hkind, hsupply, htokens, hends]
      rfl
    · rw [supply_eof rfl, hsupply]
      rfl

/-- Looking at a token. -/
theorem Sound.peek_advances (h : l.Sound text) : l.peek.1 = l.supply.next ∧
    l.Advances text l.peek.2 l.supply ∧ ∀ t, l.peek.1 = .ok t → l.peek.2.offset = t.span.start := by
  have hgives := h.next_gives
  unfold peek
  cases heq : l.next with
  | mk r l' =>
    obtain ⟨d, c, lookahead⟩ := l'
    rw [heq] at hgives
    obtain rfl : lookahead = none := hgives.lookahead
    -- a look that fails keeps no token, and nothing was in front of the error
    cases r with
    | error e =>
      have hempty : l.supply = l.supply.behind .next := by
        rw [Supply.eq_empty_of_next_error hgives.given.symm]
        rfl
      have hadvances := hgives.advances
      exact ⟨hgives.given, ⟨hadvances.sound, hadvances.supply.trans hempty.symm, hadvances.offset⟩, nofun⟩
    | ok t =>
      refine ⟨hgives.given, hgives.looked, fun u hu => ?_⟩
      cases hu
      rfl

theorem rest_eof {d : Dialect} {c : Cursor} (h : t.kind = .eof) :
    (Lexer.mk d c (some t)).rest = (.ok [t], ⟨d, c, none⟩) := by
  obtain ⟨kind, span⟩ := t
  cases h
  rfl

theorem rest_eq (h : ∀ t ∈ l.lookahead, t.kind ≠ .eof) : l.rest =
    ((TokenRun.ofCursor l.dialect l.cursor).result.map (l.lookahead.toList ++ ·),
      ⟨l.dialect, (TokenRun.ofCursor l.dialect l.cursor).cursor, none⟩) := by
  unfold rest
  split
  next span hlook => exact absurd rfl (h _ hlook)
  next => rfl

/-- Behind the end there is nothing but the end. -/
theorem Sound.rest_advances_eof {d : Dialect} {c : Cursor} (h : (Lexer.mk d c (some t)).Sound text)
    (hkind : t.kind = .eof) : (Lexer.mk d c (some t)).rest.1 = (Lexer.mk d c (some t)).supply.answer .rest ∧
      (Lexer.mk d c (some t)).Advances text (Lexer.mk d c (some t)).rest.2
        ((Lexer.mk d c (some t)).supply.behind .rest) := by
  obtain ⟨-, -, hends⟩ := h.lookahead t rfl
  obtain ⟨ht, hnil⟩ := hends hkind
  obtain ⟨offset, rest⟩ := c
  cases hnil
  rw [rest_eof hkind, supply_eof hkind]
  refine ⟨congrArg (fun t => Except.ok [t]) ?_, .of_cursor h.cursor, ?_, h.offset_le_cursor⟩
  · rw [ht]
    rfl
  · rw [supply_none, TokenRun.ofCursor_nil, ht]
    rfl

/-- Taking everything that is left. -/
theorem Sound.rest_advances (h : l.Sound text) :
    l.rest.1 = l.supply.answer .rest ∧ l.Advances text l.rest.2 (l.supply.behind .rest) := by
  obtain ⟨d, c, lookahead⟩ := l
  have hc : c.Within text := h.cursor
  -- the mark of the end that was looked at is the one token that is not given before those of the cursor
  by_cases heof : ∃ t ∈ lookahead, t.kind = .eof
  · obtain ⟨t, ht, hkind⟩ := heof
    cases ht
    exact h.rest_advances_eof hkind
  · have hkinds : ∀ t ∈ lookahead, t.kind ≠ .eof := fun t ht hkind => heof ⟨t, ht, hkind⟩
    obtain ⟨hwithin, hle⟩ := hc.ofCursor (d := d)
    rw [rest_eq hkinds, supply_eq hkinds]
    refine ⟨?_, .of_cursor hwithin, ?_, Nat.le_trans h.offset_le_cursor hle⟩
    · unfold TokenRun.result Supply.answer
      cases (TokenRun.ofCursor d c).ending with
      | eof offset => exact congrArg Except.ok (List.append_assoc _ _ _).symm
      | fault e => rfl
    · rw [supply_none, ofCursor_cursor, Supply.behind_rest]
      rfl

/-- The end of a supply is that of the text. -/
theorem Sound.ending_eq (h : l.Sound text) {offset : Nat} (hends : l.supply.ending = .eof offset) :
    offset = byteWidth text := by
  obtain ⟨d, c, lookahead⟩ := l
  have hrun (hends : (TokenRun.ofCursor d c).ending = .eof offset) : offset = byteWidth text := by
    obtain ⟨front, htext, hwidth⟩ := h.cursor
    exact (tokenization_of_ofCursor front htext hwidth hends).2
  cases lookahead with
  | none => exact hrun hends
  | some t =>
    by_cases hkind : t.kind = .eof
    · obtain ⟨-, -, heof⟩ := h.lookahead t rfl
      obtain ⟨ht, hnil⟩ := heof hkind
      rw [supply_eof hkind, ht] at hends
      cases hends
      obtain ⟨front, htext, hwidth⟩ := h.cursor
      rw [hnil, List.append_nil] at htext
      rw [← htext, hwidth]
      rfl
    · rw [supply_some hkind] at hends
      exact hrun hends

/-! ## Requests and supplies -/

/-- A request gives what the supply has for it, and leaves what is left of the supply. -/
theorem Sound.answer_eq (h : l.Sound text) (r : Request) : (l.answer r).1 = l.supply.answer r ∧
    l.Advances text (l.answer r).2 (l.supply.behind r) := by
  cases r with
  | next =>
    have hgives := h.next_gives
    exact ⟨congrArg (Except.map ([·])) hgives.given, hgives.advances⟩
  | peek =>
    obtain ⟨hpeek, hadvances, -⟩ := h.peek_advances
    exact ⟨congrArg (Except.map ([·])) hpeek, hadvances⟩
  | rest => exact h.rest_advances

theorem Sound.after_supply (h : l.Sound text) (rs : List Request) :
    (l.after rs).Sound text ∧ (l.after rs).supply = l.supply.after rs := by
  induction rs generalizing l with
  | nil => exact ⟨h, rfl⟩
  | cons r rs ih =>
    obtain ⟨-, hsound, hsupply, -⟩ := h.answer_eq r
    obtain ⟨hsound', hsupply'⟩ := ih hsound
    refine ⟨hsound', ?_⟩
    rw [after_cons, hsupply', hsupply]
    rfl

/-- What requests are answered depends on the supply alone. -/
theorem Sound.answer_after (h : l.Sound text) (rs : List Request) (r : Request) :
    ((l.after rs).answer r).1 = (l.supply.after rs).answer r := by
  obtain ⟨hsound, hsupply⟩ := h.after_supply rs
  rw [(hsound.answer_eq r).1, hsupply]

theorem Sound.taken_eq (h : l.Sound text) (rs : List Request) : l.taken rs = l.supply.taken rs := by
  induction rs generalizing l with
  | nil => rfl
  | cons r rs ih =>
    obtain ⟨hanswer, hsound, hsupply, -⟩ := h.answer_eq r
    rw [taken, Supply.taken, hanswer, ih hsound, hsupply]

end

/-- How a lexer at the front of a source of so many bytes behaves behind requests. -/
structure Transparent (start : Lexer) (size : Nat) (rs : List Request) : Prop where
  /-- The tokens that were taken are those that requests for the next token alone take. -/
  taken : start.taken rs = start.taken (.replicate (start.taken rs).length .next)
  /-- Whatever is asked for later, it is answered as behind requests for the next token alone. -/
  invisible : ∃ n, ∀ more r, (((start.after rs).after more).answer r).1 =
    (((start.after (.replicate n .next)).after more).answer r).1
  /-- A look gives the token that the next request that takes tokens gives first, however often one
  looks. -/
  looks : ∀ t, (start.after rs).peek.1 = .ok t → ∀ n,
    (((start.after rs).after (.replicate n .peek)).next.1 = .ok t ∧
      ∀ ts, ((start.after rs).after (.replicate n .peek)).rest.1 = .ok ts → ts.head? = some t)
  /-- Behind the end there is only the end, at the same place. -/
  ends : ∀ r ts t, ((start.after rs).answer r).1 = .ok ts → t ∈ ts → t.kind = .eof →
    t = .ending size ∧ ∀ more r', (((start.after rs).after (r :: more)).answer r').1 = .ok [t]
  /-- Behind an error there is only the same error. -/
  errors : ∀ r e, ((start.after rs).answer r).1 = .error e →
    ∀ more r', (((start.after rs).after (r :: more)).answer r').1 = .error e
  /-- The offset never goes back. -/
  offset_le : ∀ r, (start.after rs).offset ≤ ((start.after rs).answer r).2.offset
  /-- The offset is never behind the source. -/
  offset_le_size : (start.after rs).offset ≤ size
  /-- Behind a token that was taken the offset is its end. -/
  offset_next : ∀ t, (start.after rs).next.1 = .ok t → (start.after rs).next.2.offset = t.span.stop
  /-- Behind a look the offset is the start of the token that was looked at. -/
  offset_peek : ∀ t, (start.after rs).peek.1 = .ok t → (start.after rs).peek.2.offset = t.span.start

section
variable {text : List Char} {l : Lexer}

theorem Sound.offset_le_width (h : l.Sound text) : l.offset ≤ byteWidth text :=
  Nat.le_trans h.offset_le_cursor h.cursor.offset_le

theorem Sound.offset_next (h : l.Sound text) {t : Token} (hnext : l.next.1 = .ok t) :
    l.next.2.offset = t.span.stop := by
  have hgives := h.next_gives
  obtain ⟨-, -, hstop, -⟩ := hgives.places t hnext
  rw [hstop, offset, hgives.lookahead]

/-- What was looked at is what is taken next. -/
theorem Sound.looks (h : l.Sound text) {t : Token} (hpeek : l.peek.1 = .ok t) (n : Nat) :
    (l.after (.replicate n .peek)).next.1 = .ok t ∧
      ∀ ts, (l.after (.replicate n .peek)).rest.1 = .ok ts → ts.head? = some t := by
  obtain ⟨hsound, hsupply⟩ := h.after_supply (.replicate n .peek)
  rw [Supply.after_peeks] at hsupply
  have hnext : l.supply.next = .ok t := h.peek_advances.1 ▸ hpeek
  refine ⟨?_, fun ts hrest => ?_⟩
  · rw [hsound.next_gives.given, hsupply, hnext]
  · rw [hsound.rest_advances.1, hsupply] at hrest
    exact Supply.head?_of_answer_rest hnext hrest

/-- A request that leaves one ending and nothing in front of it. -/
theorem Sound.answer_behind_empty (h : l.Sound text) {r : Request} {ending : Ending}
    (hempty : l.supply.behind r = .empty ending) (more : List Request) (r' : Request) :
    ((l.after (r :: more)).answer r').1 = (Supply.empty ending).answer r' := by
  rw [h.answer_after]
  show ((l.supply.behind r).after more).answer r' = _
  rw [hempty, Supply.after_empty]

end

/-- **Looks are invisible, and errors stay.** -/
theorem peeking_is_invisible (d : Dialect) (source : String) (rs : List Request) :
    (ofText d source).Transparent (byteWidth source.toList) rs := by
  have hstart := sound_ofText d source
  obtain ⟨hsound, hsupply⟩ := hstart.after_supply rs
  exact {
    taken := by
      rw [hstart.taken_eq, hstart.taken_eq]
      exact Supply.taken_eq_taken_nexts _ rs
    invisible := by
      -- as many requests for the next token as the given ones take tokens
      obtain ⟨n, hn⟩ := Supply.exists_after_eq_drop (ofText d source).supply rs
      refine ⟨n, fun more r => ?_⟩
      obtain ⟨hsound', hsupply'⟩ := hstart.after_supply (.replicate n .next)
      rw [hsound.answer_after, hsound'.answer_after, hsupply, hsupply', Supply.after_nexts, hn]
    looks := fun t hpeek n => hsound.looks hpeek n
    ends := by
      intro r ts t hanswer ht hkind
      rw [(hsound.answer_eq r).1] at hanswer
      obtain ⟨offset, hends, rfl, hempty⟩ :=
        Supply.eq_empty_of_eof (supply_ne_eof _) hanswer ht hkind
      refine ⟨congrArg Token.ending (hsound.ending_eq hends), fun more r' => ?_⟩
      rw [hsound.answer_behind_empty hempty, Supply.answer_empty_eof]
    errors := by
      intro r e hanswer more r'
      rw [(hsound.answer_eq r).1] at hanswer
      rw [hsound.answer_behind_empty (Supply.eq_empty_of_error hanswer), Supply.answer_empty_fault]
    offset_le := fun r => (hsound.answer_eq r).2.offset
    offset_le_size := hsound.offset_le_width
    offset_next := fun t hnext => hsound.offset_next hnext
    offset_peek := hsound.peek_advances.2.2 }

end Lexer

end LispMachine
