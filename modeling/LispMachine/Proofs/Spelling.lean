import LispMachine.Form
import LispMachine.Form.Feed

/-!
# How forms are written

The kinds of the tokens that a form is written with. A tree keeps everything of its source but the
layout, so its tokens are a function of it: the reader takes exactly these
(`LispMachine.Proofs.Reading`).

Parentheses are balanced in what a form is written with, and so skipping a datum without reading it
skips a form that is written there as a whole (`Expr.skips`). The search for the names of a `letrec`
relies on this. What stands inside of parentheses may be any number of forms, so that the induction
needs a second notion for them (`SkipsInside`), which is closed under appending.
-/

namespace LispMachine

/-- The token of a literal. -/
def Literal.kind : Literal → TokenKind
  | .number n => .number n
  | .boolean b => .boolean b
  | .string text => .string text

/-- The token of a word. -/
def Word.kind : Word → TokenKind
  | .identifier name => .identifier name
  | .keyword k => .keyword k
  | .operator o => .operator o

/-- The token of a mark. -/
def Mark.kind : Mark → TokenKind
  | .quote => .quote
  | .quasiquote => .backquote
  | .unquote => .comma

/-- Tokens in parentheses. -/
def inParens (kinds : List TokenKind) : List TokenKind := .leftParen :: kinds ++ [.rightParen]

mutual
/-- The tokens of a datum. -/
def Datum.kinds : Datum → List TokenKind
  | .literal l => [l.kind]
  | .word w => [w.kind]
  | .list items => inParens (dataKinds items)
  | .marked mark datum => mark.kind :: datum.kinds
/-- The tokens of data. -/
def dataKinds : List Datum → List TokenKind
  | [] => []
  | d :: ds => d.kinds ++ dataKinds ds
end

/-- The tokens of a list of names. -/
def nameKinds (names : List String) : List TokenKind := inParens (names.map .identifier)

mutual
/-- The tokens of an expression. -/
def Expr.kinds : Expr → List TokenKind
  | .literal _ l => [l.kind]
  | .null _ => [.keyword .null]
  | .var _ name _ => [.identifier name]
  | .quote _ datum => .quote :: datum.kinds
  | .quoteForm _ datum => inParens (.keyword .quote :: datum.kinds)
  | .quasi _ template => .backquote :: template.kinds
  | .unary _ op operand => inParens (.keyword op.keyword :: operand.kinds)
  | .binary _ op left right => inParens (op.token :: (left.kinds ++ right.kinds))
  | .ifElse _ condition consequent alternative =>
    inParens (.keyword .if_ :: (condition.kinds ++ (consequent.kinds ++ alternative.kinds)))
  | .lambda _ params body => inParens (.keyword .lambda :: (nameKinds params ++ formKinds body))
  | .letIn _ bindings body =>
    inParens (.keyword .let_ :: (inParens (bindingKinds bindings) ++ formKinds body))
  | .letrec _ bindings body =>
    inParens (.keyword .letrec :: (inParens (bindingKinds bindings) ++ formKinds body))
  | .sequence _ forms => inParens (.keyword .begin_ :: formKinds forms)
  | .app _ function args => inParens (function.kinds ++ formKinds args)
/-- The tokens of expressions. -/
def formKinds : List Expr → List TokenKind
  | [] => []
  | e :: es => e.kinds ++ formKinds es
/-- The tokens of bindings. -/
def bindingKinds : List (String × Expr) → List TokenKind
  | [] => []
  | (name, e) :: rest => inParens (.identifier name :: e.kinds) ++ bindingKinds rest
/-- The tokens of a template. -/
def Template.kinds : Template → List TokenKind
  | .hole e => .comma :: e.kinds
  | .datum d => d.kinds
  | .list _ items => inParens (templateKinds items)
/-- The tokens of templates. -/
def templateKinds : List Template → List TokenKind
  | [] => []
  | t :: ts => t.kinds ++ templateKinds ts
end

/-- The tokens of a top-level form. -/
def TopForm.kinds : TopForm → List TokenKind
  | .value _ e => e.kinds
  | .defineVariable _ name e => inParens (.keyword .define :: .identifier name :: e.kinds)
  | .defineFunction _ name params body =>
    inParens (.keyword .define :: (nameKinds (name :: params) ++ formKinds body))

theorem dataKinds_eq_flatMap (ds : List Datum) : dataKinds ds = ds.flatMap Datum.kinds := by
  induction ds with
  | nil => rfl
  | cons d ds ih => rw [dataKinds, ih, List.flatMap_cons]

theorem formKinds_eq_flatMap (es : List Expr) : formKinds es = es.flatMap Expr.kinds := by
  induction es with
  | nil => rfl
  | cons e es ih => rw [formKinds, ih, List.flatMap_cons]

theorem templateKinds_eq_flatMap (ts : List Template) :
    templateKinds ts = ts.flatMap Template.kinds := by
  induction ts with
  | nil => rfl
  | cons t ts ih => rw [templateKinds, ih, List.flatMap_cons]

theorem bindingKinds_eq_flatMap (bindings : List (String × Expr)) :
    bindingKinds bindings = bindings.flatMap fun b => inParens (.identifier b.1 :: b.2.kinds) := by
  induction bindings with
  | nil => rfl
  | cons b bs ih => rw [bindingKinds, ih, List.flatMap_cons]

/-! ## Skipping -/

/-- Tokens that are skipped as one datum, whatever follows. -/
def Skips (kinds : List TokenKind) : Prop :=
  ∀ used : List Token, used.map Token.kind = kinds → ∀ depth rest,
    skipTokens depth (used ++ rest) = if depth = 0 then some rest else skipTokens depth rest

/-- Tokens that are skipped inside of parentheses. -/
def SkipsInside (kinds : List TokenKind) : Prop :=
  ∀ used : List Token, used.map Token.kind = kinds → ∀ depth rest,
    skipTokens (depth + 1) (used ++ rest) = skipTokens (depth + 1) rest

variable {kinds more : List TokenKind}

theorem Skips.inside (h : Skips kinds) : SkipsInside kinds := by
  intro used hused depth rest
  rw [h used hused, if_neg (Nat.succ_ne_zero depth)]

theorem SkipsInside.nil : SkipsInside [] := by
  intro used hused depth rest
  cases List.map_eq_nil_iff.mp hused
  rfl

theorem SkipsInside.append (h : SkipsInside kinds) (hmore : SkipsInside more) :
    SkipsInside (kinds ++ more) := by
  intro used hused depth rest
  obtain ⟨first, second, rfl, hfirst, hsecond⟩ := List.map_eq_append_iff.mp hused
  rw [List.append_assoc, h first hfirst, hmore second hsecond]

theorem Skips.paren (h : SkipsInside kinds) : Skips (inParens kinds) := by
  intro used hused depth rest
  obtain ⟨opening, tail, rfl, hopening, htail⟩ := List.map_eq_cons_iff.mp hused
  obtain ⟨inner, last, rfl, hinner, hlast⟩ := List.map_eq_append_iff.mp htail
  obtain ⟨closing, nothing, rfl, hclosing, hnothing⟩ := List.map_eq_cons_iff.mp hlast
  cases List.map_eq_nil_iff.mp hnothing
  rw [List.cons_append, skipTokens, hopening]
  show skipTokens (depth + 1) (inner ++ [closing] ++ rest) = _
  rw [List.append_assoc, h inner hinner, List.singleton_append, skipTokens, hclosing]
  show (if depth + 1 ≤ 1 then some rest else skipTokens depth rest) = _
  -- the closing parenthesis ends the datum only if nothing is open around it
  by_cases hdepth : depth = 0
  · rw [if_pos hdepth, if_pos (by omega)]
  · rw [if_neg hdepth, if_neg (by omega)]

/-- A token that is neither a parenthesis nor a mark. -/
theorem Skips.atom {k : TokenKind} (hleft : k ≠ .leftParen) (hright : k ≠ .rightParen)
    (hquote : k ≠ .quote) (hback : k ≠ .backquote) (hcomma : k ≠ .comma) : Skips [k] := by
  intro used hused depth rest
  obtain ⟨t, nothing, rfl, rfl, hnothing⟩ := List.map_eq_cons_iff.mp hused
  cases List.map_eq_nil_iff.mp hnothing
  rw [List.singleton_append, skipTokens]
  split
  next hk => exact absurd hk hleft
  next hk => exact absurd hk hright
  next hk => exact absurd hk hquote
  next hk => exact absurd hk hback
  next hk => exact absurd hk hcomma
  next => rfl

theorem Skips.mark {k : TokenKind} (hk : k = .quote ∨ k = .backquote ∨ k = .comma)
    (h : Skips kinds) : Skips (k :: kinds) := by
  intro used hused depth rest
  obtain ⟨t, tail, rfl, rfl, htail⟩ := List.map_eq_cons_iff.mp hused
  rw [List.cons_append, ← h tail htail, skipTokens]
  rcases hk with hk | hk | hk <;> rw [hk]

theorem Skips.identifier (name : String) : Skips [.identifier name] :=
  .atom nofun nofun nofun nofun nofun

theorem Skips.keyword (k : Keyword) : Skips [.keyword k] := .atom nofun nofun nofun nofun nofun

theorem Literal.skips (l : Literal) : Skips [l.kind] := by
  cases l <;> exact .atom nofun nofun nofun nofun nofun

theorem Word.skips (w : Word) : Skips [w.kind] := by
  cases w <;> exact .atom nofun nofun nofun nofun nofun

theorem BinaryOp.skips (op : BinaryOp) : Skips [op.token] := by
  cases op <;> exact .atom nofun nofun nofun nofun nofun

/-- Tokens in parentheses, of which the first one is neither a parenthesis nor a mark. -/
theorem Skips.parenCons {k : TokenKind} (hk : Skips [k]) (h : SkipsInside kinds) :
    Skips (inParens (k :: kinds)) :=
  .paren (hk.inside.append h)

theorem skips_nameKinds (names : List String) : Skips (nameKinds names) := by
  refine .paren ?_
  induction names with
  | nil => exact .nil
  | cons name names ih => exact (Skips.identifier name).inside.append ih

mutual
theorem Datum.skips : ∀ d : Datum, Skips d.kinds
  | .literal l => l.skips
  | .word w => w.skips
  | .list items => .paren (dataKinds_skips items)
  | .marked .quote d => .mark (.inl rfl) d.skips
  | .marked .quasiquote d => .mark (.inr (.inl rfl)) d.skips
  | .marked .unquote d => .mark (.inr (.inr rfl)) d.skips
theorem dataKinds_skips : ∀ ds : List Datum, SkipsInside (dataKinds ds)
  | [] => .nil
  | d :: ds => d.skips.inside.append (dataKinds_skips ds)
end

mutual
/-- **A form that is written somewhere is skipped as a whole.** -/
theorem Expr.skips : ∀ e : Expr, Skips e.kinds
  | .literal _ l => l.skips
  | .null _ => .keyword .null
  | .var _ name _ => .identifier name
  | .quote _ d => .mark (.inl rfl) d.skips
  | .quoteForm _ d => .parenCons (.keyword .quote) d.skips.inside
  | .quasi _ t => .mark (.inr (.inl rfl)) t.skips
  | .unary _ op e => .parenCons (.keyword op.keyword) e.skips.inside
  | .binary _ op l r => .parenCons op.skips (l.skips.inside.append r.skips.inside)
  | .ifElse _ c t e =>
    .parenCons (.keyword .if_) (c.skips.inside.append (t.skips.inside.append e.skips.inside))
  | .lambda _ params body =>
    .parenCons (.keyword .lambda) ((skips_nameKinds params).inside.append (formKinds_skips body))
  | .letIn _ bindings body =>
    .parenCons (.keyword .let_)
      ((Skips.paren (bindingKinds_skips bindings)).inside.append (formKinds_skips body))
  | .letrec _ bindings body =>
    .parenCons (.keyword .letrec)
      ((Skips.paren (bindingKinds_skips bindings)).inside.append (formKinds_skips body))
  | .sequence _ forms => .parenCons (.keyword .begin_) (formKinds_skips forms)
  | .app _ f args => .paren (f.skips.inside.append (formKinds_skips args))
theorem formKinds_skips : ∀ es : List Expr, SkipsInside (formKinds es)
  | [] => .nil
  | e :: es => e.skips.inside.append (formKinds_skips es)
theorem bindingKinds_skips : ∀ bindings : List (String × Expr), SkipsInside (bindingKinds bindings)
  | [] => .nil
  | (name, e) :: rest =>
    (Skips.parenCons (.identifier name) e.skips.inside).inside.append (bindingKinds_skips rest)
theorem Template.skips : ∀ t : Template, Skips t.kinds
  | .hole e => .mark (.inr (.inr rfl)) e.skips
  | .datum d => d.skips
  | .list _ items => .paren (templateKinds_skips items)
theorem templateKinds_skips : ∀ ts : List Template, SkipsInside (templateKinds ts)
  | [] => .nil
  | t :: ts => t.skips.inside.append (templateKinds_skips ts)
end

/-- Nothing is not a datum. -/
theorem Skips.ne_nil (h : Skips kinds) : kinds ≠ [] := by
  rintro rfl
  -- skipping from no tokens at all fails, and so it does not come to the rest
  have hnil := h [] rfl 0 []
  rw [List.nil_append, skipTokens, if_pos rfl] at hnil
  cases hnil

theorem TopForm.kinds_ne_nil (form : TopForm) : form.kinds ≠ [] := by
  cases form with
  | value span e => exact e.skips.ne_nil
  | defineVariable | defineFunction => exact List.cons_ne_nil _ _

end LispMachine
