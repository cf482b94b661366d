import LispMachine.Span
import LispMachine.Number

/-!
# Tokens

The words of the source language. A token is a kind together with the span of its lexeme. Each kind
has a spelling, the text that reads back as the kind, and a description for error messages.

`and` and `or` are not keywords: they are ordinary names that stand for an operator where nothing
binds them.
-/

namespace LispMachine

/-- The reserved words. -/
inductive Keyword where
  | if_
  | let_
  | letrec
  | lambda
  | begin_
  | car
  | cdr
  | cons
  | consp
  | define
  | defineMacro
  | null
  | quote
deriving DecidableEq, Repr

namespace Keyword

/-- Every reserved word. -/
def all : List Keyword :=
  [if_, let_, letrec, lambda, begin_, car, cdr, cons, consp, define, defineMacro, null, quote]

/-- The spelling of a reserved word. -/
def name : Keyword → String
  | if_ => "if"
  | let_ => "let"
  | letrec => "letrec"
  | lambda => "lambda"
  | begin_ => "begin"
  | car => "car"
  | cdr => "cdr"
  | cons => "cons"
  | consp => "consp"
  | define => "define"
  | defineMacro => "define-macro"
  | null => "null"
  | quote => "quote"

/-- The reserved word that a name spells. -/
def ofName? (name : String) : Option Keyword :=
  all.find? fun k => k.name == name

end Keyword

/-- The operators that are written with symbols. -/
inductive Operator where
  | add
  | sub
  | mul
  | div
  | eq
  | ne
  | lt
  | le
  | gt
  | ge
deriving DecidableEq, Repr

/-- The spelling of an operator. -/
def Operator.symbol : Operator → String
  | add => "+"
  | sub => "-"
  | mul => "*"
  | div => "/"
  | eq => "="
  | ne => "!="
  | lt => "<"
  | le => "<="
  | gt => ">"
  | ge => ">="

/-- What a token is, apart from where it stands. -/
inductive TokenKind where
  | number (n : Number)
  | identifier (name : String)
  | string (text : String)
  | boolean (b : Bool)
  | keyword (k : Keyword)
  | operator (o : Operator)
  | leftParen
  | rightParen
  | quote
  | backquote
  | comma
  /-- The end of the source, behind its last token. -/
  | eof
deriving DecidableEq, Repr

namespace TokenKind

/-- The kind of a word: a keyword if it spells one, and an identifier otherwise. -/
def ofWord (name : String) : TokenKind :=
  match Keyword.ofName? name with
  | some k => .keyword k
  | none => .identifier name

/-- The text that a kind is written as. The end of the source is written as nothing. -/
def spelling : TokenKind → String
  | number n => n.text
  | identifier name => name
  | string text => "\"" ++ text ++ "\""
  | boolean true => "#t"
  | boolean false => "#f"
  | keyword k => k.name
  | operator o => o.symbol
  | leftParen => "("
  | rightParen => ")"
  | quote => "'"
  | backquote => "`"
  | comma => ","
  | eof => ""

/-- How error messages speak of a kind. -/
def description : TokenKind → String
  | number n => "number " ++ n.text
  | identifier name => "identifier '" ++ name ++ "'"
  | string text => "string \"" ++ text ++ "\""
  | boolean true => "#t"
  | boolean false => "#f"
  | keyword k => "keyword '" ++ k.name ++ "'"
  | operator o => "operator '" ++ o.symbol ++ "'"
  | leftParen => "'('"
  | rightParen => "')'"
  | quote => "'''"
  | backquote => "'`'"
  | comma => "','"
  | eof => "end of input"

end TokenKind

/-- A token and where it stands. -/
structure Token where
  kind : TokenKind
  span : Span
deriving DecidableEq, Repr

/-- The token that stands behind a source that ends at an offset. -/
def Token.ending (offset : Nat) : Token := ⟨.eof, .point offset⟩

end LispMachine
