import LispMachine.Form.Complaint
import LispMachine.Token.Lexer

/-!
# A feed of tokens

A reader of forms takes tokens from the front of a feed. It may look at the next token before it
takes it. Behind the last token stands the end of the source or a lexical error, and the error is
met only by a reader that comes so far.

`collect` is the one loop of the reader. It goes on as long as its step gives an item, and no longer
than the feed has tokens, of which every item takes at least one.
-/

namespace LispMachine

/-- The tokens that are left. -/
structure Feed where
  tokens : List Token
  ending : Ending
  /-- Where the last token that was taken ends. -/
  position : Nat := 0
deriving DecidableEq, Repr

/-- The feed of a token run. -/
def Feed.ofRun (r : TokenRun) : Feed := { tokens := r.tokens, ending := r.ending }

/-- A reader of something from a feed. -/
abbrev Read := StateT Feed (Except Fault)

namespace Read

section
variable {α σ : Type}

/-- Stops with a complaint about an offset. -/
def fail (offset : Nat) (c : Complaint) : Read α := throw (.malformed offset c)

/-- Stops at a token that is not what the grammar asks for. -/
def unexpected (t : Token) (expected : Expectation) : Read α :=
  fail t.span.start (.unexpected t.kind expected)

/-- Looks at the next token. -/
def peek : Read Token := fun f =>
  match f.tokens, f.ending with
  | t :: _, _ => .ok (t, f)
  | [], .eof offset => .ok (.ending offset, f)
  | [], .fault e => .error (.lexical e)

/-- Takes the next token. The end of the source can be taken any number of times. -/
def next : Read Token := fun f =>
  match f.tokens, f.ending with
  | t :: rest, _ => .ok (t, { f with tokens := rest, position := t.span.stop })
  | [], .eof offset => .ok (.ending offset, f)
  | [], .fault e => .error (.lexical e)

/-- Where the last token that was taken ends. -/
def position : Read Nat := return (← get).position

/-- Takes a token of a given kind. -/
def expect (kind : TokenKind) (expected : Expectation) : Read Token := do
  let t ← next
  if t.kind = kind then return t else unexpected t expected

/-- Takes a name. -/
def identifier (expected : Expectation) : Read (String × Span) := do
  let t ← next
  match t.kind with
  | .identifier name => return (name, t.span)
  | _ => unexpected t expected

/-- Reads ahead and gives all tokens back. -/
def lookAhead (r : Read α) : Read α := fun f => (r f).map fun (a, _) => (a, f)

/-- Collects items with at most so many tries. The step gets a state along, and ends the list by
giving no item. -/
def collectFor (step : σ → Read (Option (α × σ))) : Nat → σ → Read (List α)
  | 0, _ => pure []
  | fuel + 1, s => do
    match ← step s with
    | none => pure []
    | some (a, s) => return a :: (← collectFor step fuel s)

/-- Collects items until the step gives none. An item that takes no token ends the list at the
latest when there was one try for each token and one more. -/
def collect (step : σ → Read (Option (α × σ))) (s : σ) : Read (List α) := do
  collectFor step ((← get).tokens.length + 1) s

/-- Reads items up to and including a closing parenthesis. Each item is told the offset where it
starts. -/
def untilClose (item : Nat → Read α) : Read (List α × Span) := do
  let items ← collect (fun _ => do
    let t ← peek
    if t.kind = .rightParen then return none
    return some (← item t.span.start, ())) ()
  return (items, (← next).span)

end

end Read

/-- Skips one datum at the front of tokens, inside so many parentheses: the tokens behind it, unless
it runs past the last of them. Marks belong to the datum that follows them. -/
def skipTokens : Nat → List Token → Option (List Token)
  | _, [] => none
  | depth, t :: rest =>
    match t.kind with
    | .leftParen => skipTokens (depth + 1) rest
    | .rightParen => if depth ≤ 1 then some rest else skipTokens (depth - 1) rest
    | .quote | .backquote | .comma => skipTokens depth rest
    | _ => if depth = 0 then some rest else skipTokens depth rest

/-- Where the last of some tokens ends, and if there are none, where the last one before them ended. -/
def endOf (position : Nat) (tokens : List Token) : Nat := tokens.foldl (fun _ t => t.span.stop) position

/-- The feed when all tokens before the given rest are taken. -/
def Feed.skipTo (f : Feed) (rest : List Token) : Feed :=
  let taken := f.tokens.take (f.tokens.length - rest.length)
  { f with tokens := rest, position := endOf f.position taken }

/-- Skips one datum without reading it. A datum that the source breaks off is skipped as well. -/
def Read.skipDatum : Read Unit := fun f =>
  match skipTokens 0 f.tokens, f.ending with
  | some rest, _ => .ok ((), f.skipTo rest)
  | none, .eof _ => .ok ((), f.skipTo [])
  | none, .fault e => .error (.lexical e)

end LispMachine
