/-!
# Spans of source text

A span is a half open range of byte offsets into a source text. Every token carries the span of its
lexeme, and every instruction the span of the form that emitted it, so that a step of the machine
can be shown next to the text it came from.
-/

namespace LispMachine

/-- The bytes from `start` up to, and without, `stop`. -/
structure Span where
  start : Nat
  stop : Nat
deriving DecidableEq, Repr, Inhabited

namespace Span

/-- The empty span at one offset. -/
def point (offset : Nat) : Span := ⟨offset, offset⟩

/-- A span is written as its two offsets with two dots between them. -/
def text (s : Span) : String := s!"{s.start}..{s.stop}"

end Span

/-- The two parentheses of a form, by the spans of their tokens. -/
structure Parens where
  opening : Span
  closing : Span
deriving DecidableEq, Repr

/-- The whole form, from its opening parenthesis to its closing one. -/
def Parens.span (p : Parens) : Span := ⟨p.opening.start, p.closing.stop⟩

end LispMachine
