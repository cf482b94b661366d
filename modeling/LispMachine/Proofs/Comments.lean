import Mathlib.Control.Monad.Basic
import LispMachine.Proofs.Peeking

/-!
# Semicolons that start no comment

In the dialect with comments a semicolon in front of a token starts a comment, but for one case: a
comment that a carriage return breaks off, with no line feed behind it, is no comment, and its semicolon
is an unexpected character (`semicolons_start_comments`). A carriage return on its own is a blank
everywhere else.
-/

namespace LispMachine

open Text (byteWidth)
open Lexer (Request)

/-- A semicolon with a carriage return behind it on its line that no line feed follows. -/
def BrokenComment (text : List Char) (offset : Nat) : Prop :=
  ∃ before body rest, before ++ ';' :: (body ++ '\r' :: rest) = text ∧ byteWidth before = offset ∧
    OneLine body ∧ rest.head? ≠ some '\n'

section
variable {d : Dialect} {text : List Char} {c after : Cursor} {e : LexError}

/-- The error behind the last token is met somewhere in the text. -/
theorem exists_scan_of_fault (hc : c.Within text) (h : (TokenRun.ofCursor d c).ending = .fault e) :
    ∃ c' after, c'.Within text ∧ scan d c' = .fault e after := by
  fun_induction TokenRun.ofCursor d c with
  | case1 => cases h
  | case2 c e after hscan =>
    cases h
    exact ⟨c, after, hc, hscan⟩
  | case3 c t after hscan run ih => exact ih (hc.scan_token hscan) h

/-- A semicolon that is not skipped breaks off its comment. -/
theorem commentBody?_of_trivia (hd : d.comments) {rest : List Char}
    (h : trivia d (';' :: rest) = ([], ';' :: rest)) : commentBody? rest = none := by
  cases hbody : commentBody? rest with
  | none => rfl
  | some parts =>
    rw [trivia_comment not_isLayout_semicolon ⟨hd, rfl⟩ hbody] at h
    cases h

theorem LexError.ofChar_eq_semicolon {first : Char} {start offset : Nat}
    (h : LexError.unexpectedChar ';' offset = .ofChar first start) : first = ';' ∧ start = offset := by
  unfold LexError.ofChar at h
  split at h
  next => cases h
  next =>
    split at h
    next => cases h
    next =>
      cases h
      exact ⟨rfl, rfl⟩

theorem brokenComment_of_scan (hd : d.comments) (hc : c.Within text) {offset : Nat}
    (h : scan d c = .fault (.unexpectedChar ';' offset) after) : BrokenComment text offset := by
  obtain ⟨rfl, ⟨first, rest, hrest, -, hchar⟩ | ⟨l, rest, -, hkind⟩⟩ := scan_eq_fault_iff.mp h
  · obtain ⟨rfl, hoffset⟩ := LexError.ofChar_eq_semicolon hchar
    have hskipped : trivia d (c.skipTrivia d).rest = ([], (c.skipTrivia d).rest) := trivia_trivia d c.rest
    rw [hrest] at hskipped
    obtain ⟨body, behind, rfl, hbody, hbehind⟩ :=
      commentBody?_eq_none_iff.mp (commentBody?_of_trivia hd hskipped)
    obtain ⟨before, htext, hwidth⟩ := hc.skipTrivia (d := d)
    exact ⟨before, body, behind, hrest ▸ htext, hwidth.trans hoffset, hbody, hbehind⟩
  · cases l with
    | digits digits =>
      rw [Lexeme.kind] at hkind
      split at hkind <;> cases hkind
    | word | string | fixed => cases hkind

/-- **In the dialect with comments, only the semicolon of a broken comment is unexpected.** -/
theorem semicolons_start_comments (hd : d.comments) {source : String} {rs : List Request} {r : Request}
    {offset : Nat}
    (h : (((Lexer.ofText d source).after rs).answer r).1 = .error (.unexpectedChar ';' offset)) :
    BrokenComment source.toList offset := by
  have hstart := Lexer.sound_ofText d source
  rw [hstart.answer_after] at h
  have hends := Supply.ending_of_answer_error h
  rw [Supply.ending_after] at hends
  obtain ⟨c, after, hc, hscan⟩ := exists_scan_of_fault hstart.cursor hends
  exact brokenComment_of_scan hd hc hscan

/-- A second line with a broken comment, behind a token, a comment and a look. -/
theorem second_comment_is_broken :
    (((Lexer.ofText {} "1 ; one\n;two\r3").after [.next, .peek]).answer .rest).1 =
        .error (.unexpectedChar ';' 8) ∧
      BrokenComment "1 ; one\n;two\r3".toList 8 := by
  have h : (((Lexer.ofText {} "1 ; one\n;two\r3").after [.next, .peek]).answer .rest).1 =
      .error (.unexpectedChar ';' 8) := by
    decide +kernel
  exact ⟨h, semicolons_start_comments rfl h⟩

/-- A comment with a carriage return at the end of the source starts no comment for any request. -/
theorem comment_before_return_fails :
    ((Lexer.ofText {} "; a\r").answer .next).1 = .error (.unexpectedChar ';' 0) ∧
      ((Lexer.ofText {} "; a\r").answer .peek).1 = .error (.unexpectedChar ';' 0) ∧
      ((Lexer.ofText {} "; a\r").answer .rest).1 = .error (.unexpectedChar ';' 0) := by
  decide +kernel

end

end LispMachine
