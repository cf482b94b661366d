import LispMachine.Proofs.Reading

/-!
# Where forms stand

The spans in a form are stretches of the tokens that it was read from: each reaches from the start of one
token to the end of the same or a later one, and the spans of the parts of a form in parentheses are
between these (`Expr.LiesIn`). The readers keep to this whatever the layout is, because the offset that
they ask for when a form ends is where the last token that was taken ends, and never where a token ends
that was only looked at (`Uses`).

A form in parentheses is read by a reader that starts behind its first tokens: the opening parenthesis, and
the keyword. So what such a reader promises is about any tokens before its own that start with the opening
parenthesis (`Behind`), and the tokens are put together where both are known.
-/

namespace LispMachine

open Read

/-! ## Stretches of tokens

Spans are compared with tokens, and not with offsets: a span covers the tokens that it was made from, and
lies in every longer stretch of them.
-/

/-- A span reaches over tokens, from the start of the first to the end of the last. -/
def Span.Covers (s : Span) (run : List Token) : Prop :=
  ∃ first more, run = first :: more ∧ s = ⟨first.span.start, endOf first.span.stop more⟩

/-- A span reaches over some of the tokens. -/
def Span.LiesIn (s : Span) (ts : List Token) : Prop := ∃ run, run <:+: ts ∧ s.Covers run

/-- Parentheses enclose tokens if they are the first and the last of them. -/
def Parens.Enclose (parens : Parens) (run : List Token) : Prop :=
  ∃ first inner last, run = first :: (inner ++ [last]) ∧ parens = ⟨first.span, last.span⟩

/-- Parentheses stand among the tokens, and around what holds of the tokens from the one to the other. -/
def Parens.Around (parens : Parens) (ts : List Token) (Inside : List Token → Prop) : Prop :=
  ∃ run, run <:+: ts ∧ parens.Enclose run ∧ Inside run

mutual
/-- All spans of an expression reach over some of the tokens, those of its parts between its own
parentheses. -/
def Expr.LiesIn : Expr → List Token → Prop
  | .literal span _, ts | .null span, ts | .var span _ _, ts | .quote span _, ts => span.LiesIn ts
  | .quoteForm parens _, ts => parens.Around ts fun _ => True
  | .quasi span template, ts => span.LiesIn ts ∧ template.LiesIn ts
  | .unary parens _ operand, ts => parens.Around ts fun run => operand.LiesIn run
  | .binary parens _ left right, ts => parens.Around ts fun run => left.LiesIn run ∧ right.LiesIn run
  | .ifElse parens condition consequent alternative, ts => parens.Around ts fun run =>
    condition.LiesIn run ∧ consequent.LiesIn run ∧ alternative.LiesIn run
  | .lambda parens _ body, ts | .sequence parens body, ts => parens.Around ts fun run => AllLieIn body run
  | .letIn parens bindings body, ts | .letrec parens bindings body, ts =>
    parens.Around ts fun run => InitsLieIn bindings run ∧ AllLieIn body run
  | .app parens function args, ts => parens.Around ts fun run => function.LiesIn run ∧ AllLieIn args run
/-- Expressions whose spans reach over some of the tokens. -/
def AllLieIn : List Expr → List Token → Prop
  | [], _ => True
  | e :: es, ts => e.LiesIn ts ∧ AllLieIn es ts
/-- Initialisers whose spans reach over some of the tokens. -/
def InitsLieIn : List (String × Expr) → List Token → Prop
  | [], _ => True
  | (_, e) :: rest, ts => e.LiesIn ts ∧ InitsLieIn rest ts
/-- All spans of a template reach over some of the tokens. -/
def Template.LiesIn : Template → List Token → Prop
  | .hole e, ts => e.LiesIn ts
  | .list parens items, ts => parens.Around ts fun run => TemplatesLieIn items run
  | .datum _, _ => True
/-- Templates whose spans reach over some of the tokens. -/
def TemplatesLieIn : List Template → List Token → Prop
  | [], _ => True
  | t :: rest, ts => t.LiesIn ts ∧ TemplatesLieIn rest ts
end

/-- All spans of a top-level form reach over some of the tokens. -/
def TopForm.LiesIn : TopForm → List Token → Prop
  | .value span e, ts => span.LiesIn ts ∧ e.LiesIn ts
  | .defineVariable parens _ e, ts => parens.Around ts fun run => e.LiesIn run
  | .defineFunction parens _ _ body, ts => parens.Around ts fun run => AllLieIn body run

section
variable {ts ts' run more : List Token} {s : Span} {t : Token} {parens : Parens}

theorem Span.Covers.liesIn (h : s.Covers run) : s.LiesIn run := ⟨run, List.infix_rfl, h⟩

theorem Span.LiesIn.mono (h : s.LiesIn ts) (hts : ts <:+: ts') : s.LiesIn ts' := by
  obtain ⟨run, hrun, hcovers⟩ := h
  exact ⟨run, hrun.trans hts, hcovers⟩

theorem Token.span_covers (t : Token) : t.span.Covers [t] := ⟨t, [], rfl, rfl⟩

theorem Parens.Enclose.covers (h : parens.Enclose run) : parens.span.Covers run := by
  obtain ⟨first, inner, last, rfl, rfl⟩ := h
  refine ⟨first, inner ++ [last], rfl, ?_⟩
  rw [endOf, List.foldl_append]
  rfl

theorem Parens.Enclose.opening_liesIn (h : parens.Enclose run) : parens.opening.LiesIn run := by
  obtain ⟨first, inner, last, rfl, rfl⟩ := h
  exact ⟨[first], ⟨[], inner ++ [last], rfl⟩, first.span_covers⟩

theorem Parens.Around.mono {Inside : List Token → Prop} (h : parens.Around ts Inside) (hts : ts <:+: ts') :
    parens.Around ts' Inside := by
  obtain ⟨run, hrun, hrest⟩ := h
  exact ⟨run, hrun.trans hts, hrest⟩

mutual
theorem Expr.LiesIn.mono : ∀ {e : Expr} {ts ts' : List Token}, e.LiesIn ts → ts <:+: ts' → e.LiesIn ts'
  | .literal .., _, _, h, hts | .null _, _, _, h, hts | .var .., _, _, h, hts | .quote .., _, _, h, hts =>
    Span.LiesIn.mono h hts
  | .quasi .., _, _, h, hts => ⟨h.1.mono hts, h.2.mono hts⟩
  | .quoteForm .., _, _, h, hts | .unary .., _, _, h, hts | .binary .., _, _, h, hts
  | .ifElse .., _, _, h, hts | .lambda .., _, _, h, hts | .sequence .., _, _, h, hts
  | .letIn .., _, _, h, hts | .letrec .., _, _, h, hts | .app .., _, _, h, hts => Parens.Around.mono h hts
theorem Template.LiesIn.mono : ∀ {t : Template} {ts ts' : List Token}, t.LiesIn ts → ts <:+: ts' →
    t.LiesIn ts'
  | .hole _, _, _, h, hts => Expr.LiesIn.mono h hts
  | .list .., _, _, h, hts => Parens.Around.mono h hts
  | .datum _, _, _, _, _ => trivial
end

theorem TopForm.LiesIn.mono {form : TopForm} (h : form.LiesIn ts) (hts : ts <:+: ts') :
    form.LiesIn ts' := by
  cases form with
  | value span e => exact ⟨h.1.mono hts, h.2.mono hts⟩
  | defineVariable | defineFunction => exact Parens.Around.mono h hts

theorem allLieIn_iff {es : List Expr} : AllLieIn es ts ↔ ∀ e ∈ es, e.LiesIn ts := by
  induction es with
  | nil => exact iff_of_true trivial (List.forall_mem_nil _)
  | cons e es ih => rw [AllLieIn, ih, List.forall_mem_cons]

theorem initsLieIn_iff {bindings : List (String × Expr)} :
    InitsLieIn bindings ts ↔ ∀ b ∈ bindings, b.2.LiesIn ts := by
  induction bindings with
  | nil => exact iff_of_true trivial (List.forall_mem_nil _)
  | cons b bs ih => rw [InitsLieIn, ih, List.forall_mem_cons]

theorem templatesLieIn_iff {templates : List Template} :
    TemplatesLieIn templates ts ↔ ∀ t ∈ templates, t.LiesIn ts := by
  induction templates with
  | nil => exact iff_of_true trivial (List.forall_mem_nil _)
  | cons t templates ih => rw [TemplatesLieIn, ih, List.forall_mem_cons]

end

/-! ## What readers use

A reader uses the tokens from its place in the feed to the place that it leaves. Binds append what is used,
so that a span which was made from the first and the last token covers all between them.
-/

/-- A feed from which tokens were taken, and the feed behind them. -/
structure Feed.Passes (f : Feed) (used : List Token) (f' : Feed) : Prop where
  tokens : f.tokens = used ++ f'.tokens
  position : f'.position = endOf f.position used

namespace Feed.Passes
variable {f f₁ f' : Feed} {used more : List Token}

theorem refl (f : Feed) : f.Passes [] f := ⟨rfl, rfl⟩

theorem trans (h : f.Passes used f₁) (hmore : f₁.Passes more f') : f.Passes (used ++ more) f' := by
  constructor
  · rw [h.tokens, hmore.tokens, List.append_assoc]
  · rw [hmore.position, h.position]
    exact (List.foldl_append ..).symm

theorem length_lt (h : f.Passes used f') (hne : used ≠ []) : f'.tokens.length < f.tokens.length := by
  have hpos := List.length_pos_iff.mpr hne
  rw [h.tokens, List.length_append]
  omega

end Feed.Passes

theorem Takes.passes {f f' : Feed} {kinds : List TokenKind} (h : Takes f kinds f') :
    ∃ used, f.Passes used f' ∧ used.map Token.kind = kinds := by
  obtain ⟨used, htokens, hkinds⟩ := h.tokens
  refine ⟨used, ⟨htokens, ?_⟩, hkinds⟩
  rw [h.feed, Feed.skipTo_of_eq htokens]

theorem Read.next_passes {f f' : Feed} {t : Token} (h : next f = .ok (t, f')) (hne : t.kind ≠ .eof) :
    f.Passes [t] f' := by
  unfold next at h
  split at h
  next t' rest _ htokens =>
    cases h
    exact ⟨htokens, rfl⟩
  next =>
    cases h
    exact absurd rfl hne
  next => cases h

/-- What a reader gives goes with the tokens that it takes, and with the place where the token before them
ends. -/
def Uses {α : Type} (r : Read α) (Good : Nat → List Token → α → Prop) : Prop :=
  ∀ f a f', r f = .ok (a, f') → ∃ used, f.Passes used f' ∧ Good f.position used a

/-- The last of some tokens has a span. -/
def Closes (ts : List Token) (closing : Span) : Prop :=
  ∃ inner last, ts = inner ++ [last] ∧ last.span = closing

namespace Uses
variable {α β σ : Type} {Good : Nat → List Token → α → Prop} {Fine : Nat → List Token → β → Prop}

theorem imp {r : Read α} {Good' : Nat → List Token → α → Prop} (h : Uses r Good)
    (himp : ∀ p used a, Good p used a → Good' p used a) : Uses r Good' := by
  intro f a f' hread
  obtain ⟨used, hpasses, hgood⟩ := h f a f' hread
  exact ⟨used, hpasses, himp _ _ _ hgood⟩

theorem pure {a : α} (h : ∀ p, Good p [] a) : Uses (pure a) Good := by
  intro f b f' hread
  cases hread
  exact ⟨[], .refl f, h _⟩

theorem fail (offset : Nat) (c : Complaint) : Uses (fail offset c) Good := nofun

theorem unexpected (t : Token) (expected : Expectation) : Uses (unexpected t expected) Good := nofun

/-- Two readers take their tokens one after the other, and the second starts where the first ends. -/
theorem bind {x : Read α} {g : α → Read β} (hx : Uses x Good)
    (hg : ∀ p used a, Good p used a →
      Uses (g a) fun q more b => q = endOf p used → Fine p (used ++ more) b) : Uses (x >>= g) Fine := by
  intro f b f' hread
  obtain ⟨a, f₁, hread, hrest⟩ := bind_eq_ok hread
  obtain ⟨used, hpasses, hgood⟩ := hx f a f₁ hread
  obtain ⟨more, hpasses', hfine⟩ := hg _ used a hgood f₁ b f' hrest
  exact ⟨used ++ more, hpasses.trans hpasses', hfine hpasses.position⟩

/-- Two readers of which the second does not ask where it starts. -/
theorem next {x : Read α} {g : α → Read β} (hx : Uses x Good)
    (hg : ∀ p used a, Good p used a → Uses (g a) fun _ more b => Fine p (used ++ more) b) :
    Uses (x >>= g) Fine :=
  hx.bind fun p used a ha => (hg p used a ha).imp fun _ _ _ hfine _ => hfine

theorem of_takes {r : Read α} (h : ∀ {f a f'}, r f = .ok (a, f') → ∃ kinds, Takes f kinds f') :
    Uses r fun _ _ _ => True := by
  intro f a f' hread
  obtain ⟨kinds, htakes⟩ := h hread
  obtain ⟨used, hpasses, -⟩ := htakes.passes
  exact ⟨used, hpasses, trivial⟩

theorem token : Uses Read.next fun _ used t => t.kind ≠ .eof → used = [t] := by
  intro f t f' hread
  by_cases heof : t.kind = .eof
  · rcases next_eq_ok hread with htakes | ⟨-, rfl⟩
    · obtain ⟨used, hpasses, -⟩ := htakes.passes
      exact ⟨used, hpasses, absurd heof⟩
    · exact ⟨[], .refl _, absurd heof⟩
  · exact ⟨[t], next_passes hread heof, fun _ => rfl⟩

theorem peek : Uses Read.peek fun _ used _ => used = [] := by
  intro f t f' hread
  obtain ⟨rfl, -⟩ := peek_eq_ok hread
  exact ⟨[], .refl _, rfl⟩

theorem position : Uses Read.position fun p used q => used = [] ∧ q = p := by
  intro f p f' hread
  cases hread
  exact ⟨[], .refl _, rfl, rfl⟩

theorem lookAhead (r : Read α) : Uses (lookAhead r) fun _ used _ => used = [] := by
  intro f a f' hread
  cases lookAhead_eq_ok hread
  exact ⟨[], .refl _, rfl⟩

theorem expect {kind : TokenKind} (hne : kind ≠ .eof) (expected : Expectation) :
    Uses (expect kind expected) fun _ used t => used = [t] := by
  refine token.next fun p used t ht => ?_
  split
  next hkind =>
    refine .pure fun _ => ?_
    rw [List.append_nil]
    exact ht fun heof => hne (hkind.symm.trans heof)
  next => exact .unexpected _ _

end Uses

/-- A step of a loop takes tokens for each item that it gives. -/
def UsesForEach {α σ : Type} (step : σ → Read (Option (α × σ))) (Item : α → List Token → Prop) : Prop :=
  ∀ s, Uses (step s) fun _ used r => ∀ a s', r = some (a, s') → used ≠ [] ∧ Item a used

section
variable {α σ : Type} {step : σ → Read (Option (α × σ))} {Item : α → List Token → Prop} {f f' : Feed}
  {as : List α} {s : σ} (hmono : ∀ a ts ts', Item a ts → ts <:+: ts' → Item a ts')

theorem UsesForEach.collects (hstep : UsesForEach step Item) (h : collect step s f = .ok (as, f')) :
    Collects step s f as f' := by
  refine collects_of_collect (fun _ => True) (fun _ hread => ⟨trivial, ?_⟩) trivial h
  obtain ⟨used, hpasses, hitem⟩ := hstep _ _ _ _ hread
  exact hpasses.length_lt (hitem _ _ rfl).1

/-- A loop ends with a try that gives no item. -/
theorem Collects.exists_none (h : Collects step s f as f') : ∃ s' f₁, step s' f₁ = .ok (none, f') := by
  induction h with
  | done hread => exact ⟨_, _, hread⟩
  | item _ _ ih => exact ih

variable (Item)
include hmono

/-- Items that go with their own tokens go with all the tokens that are taken. -/
theorem Collects.passes (hstep : UsesForEach step Item) (h : Collects step s f as f') :
    ∃ used, f.Passes used f' ∧ ∀ a ∈ as, Item a used := by
  induction h with
  | done hread =>
    obtain ⟨used, hpasses, -⟩ := hstep _ _ _ _ hread
    exact ⟨used, hpasses, List.forall_mem_nil _⟩
  | item hread _ ih =>
    obtain ⟨used, hpasses, hitem⟩ := hstep _ _ _ _ hread
    obtain ⟨more, hpasses', hitems⟩ := ih
    refine ⟨used ++ more, hpasses.trans hpasses', List.forall_mem_cons.mpr ⟨?_, fun a ha => ?_⟩⟩
    · exact hmono _ _ _ (hitem _ _ rfl).2 (List.prefix_append ..).isInfix
    · exact hmono _ _ _ (hitems a ha) (List.suffix_append ..).isInfix

theorem Uses.collect (hstep : UsesForEach step Item) (s : σ) :
    Uses (collect step s) fun _ used as => ∀ a ∈ as, Item a used :=
  fun _ _ _ h => (hstep.collects h).passes Item hmono hstep

/-- Items up to a closing parenthesis, which is the last token that is taken. -/
theorem Uses.untilClose {item : Nat → Read α}
    (hitem : ∀ blame, Uses (item blame) fun _ used a => used ≠ [] ∧ Item a used) :
    Uses (untilClose item) fun _ used r => Closes used r.2 ∧ ∀ a ∈ r.1, Item a used := by
  intro f r f' h
  obtain ⟨as, f₁, hcollect, hrest⟩ := bind_eq_ok h
  obtain ⟨t, f₂, hlast, hpure⟩ := bind_eq_ok hrest
  cases hpure
  have hstep : UsesForEach (fun _ => do
      let t ← Read.peek
      if t.kind = .rightParen then return none
      return some (← item t.span.start, ())) Item := by
    refine fun _ => Uses.peek.next fun p used t hused => ?_
    split
    next => exact .pure fun _ => nofun
    next =>
      refine (hitem t.span.start).next fun p' more a ha => .pure fun _ a' s' hsome => ?_
      cases hsome
      rw [hused, List.nil_append, List.append_nil]
      exact ha
  obtain ⟨used, hpasses, hitems⟩ := Uses.collect Item hmono hstep () _ _ _ hcollect
  -- the loop has ended because it saw a closing parenthesis, and that is the token taken behind it
  obtain ⟨-, f₃, hnone⟩ := (hstep.collects hcollect).exists_none
  obtain ⟨-, rfl, t', f₄, hnext, hclose⟩ | ⟨_, _, hsome, _⟩ := untilClose_try hnone
  · rw [hlast] at hnext
    cases hnext
    -- the last token is one of the source and not the one that stands for its end
    have hclosing := next_passes hlast (by rw [hclose]; nofun)
    refine ⟨used ++ [t], hpasses.trans hclosing, ⟨used, t, rfl, rfl⟩, fun a ha => ?_⟩
    exact hmono _ _ _ (hitems a ha) (List.prefix_append ..).isInfix
  · cases hsome

end

/-! ## The readers -/

/-- What the readers keep to: a form is given with the tokens that it was read from. -/
structure Readers.Placed (inner : Readers) : Prop where
  form : ∀ blame scope, Uses (inner.form blame scope) fun _ used e => used ≠ [] ∧ e.LiesIn used
  template : ∀ blame scope, Uses (inner.template blame scope) fun _ used t => used ≠ [] ∧ t.LiesIn used

/-- The first of some tokens has a span. -/
def Opens (ts : List Token) (opening : Span) : Prop :=
  ∃ first more, ts = first :: more ∧ first.span = opening

section
variable {inner : Readers} {level : Nat} {scope : Scope} {opening closing : Span} {used more : List Token}

theorem Opens.append (h : Opens used opening) (more : List Token) : Opens (used ++ more) opening := by
  obtain ⟨first, rest, rfl, hfirst⟩ := h
  exact ⟨first, rest ++ more, rfl, hfirst⟩

theorem Opens.enclose (h : Opens used opening) (hclose : Closes more closing) :
    (Parens.mk opening closing).Enclose (used ++ more) := by
  obtain ⟨first, rest, rfl, rfl⟩ := h
  obtain ⟨inner, last, rfl, rfl⟩ := hclose
  refine ⟨first, rest ++ inner, last, ?_, rfl⟩
  rw [List.cons_append, List.append_assoc]

theorem Opens.around {Inside : List Token → Prop} (h : Opens used opening) (hclose : Closes more closing)
    (hinside : Inside (used ++ more)) : (Parens.mk opening closing).Around (used ++ more) Inside :=
  ⟨used ++ more, List.infix_rfl, h.enclose hclose, hinside⟩

/-- A form that is read behind its opening parenthesis, with all tokens from there on. -/
def Behind (opening : Span) (used : List Token) (e : Expr) : Prop :=
  ∀ before, Opens before opening → e.LiesIn (before ++ used)

theorem Behind.append {e : Expr} (h : Behind opening more e) (used : List Token) :
    Behind opening (used ++ more) e := by
  intro before hbefore
  rw [← List.append_assoc]
  exact h (before ++ used) (hbefore.append used)

theorem allLieIn_mono {es : List Expr} (h : AllLieIn es more) (hmore : more <:+: used) :
    AllLieIn es used :=
  allLieIn_iff.mpr fun e he => (allLieIn_iff.mp h e he).mono hmore

theorem initsLieIn_mono {bindings : List (String × Expr)} (h : InitsLieIn bindings more)
    (hmore : more <:+: used) : InitsLieIn bindings used :=
  initsLieIn_iff.mpr fun b hb => (initsLieIn_iff.mp h b hb).mono hmore

/-- A body that ends with the closing parenthesis, behind other parts of the form. -/
theorem Opens.around_body {before skipped : List Token} {body : List Expr} (h : Opens before opening)
    (hclose : Closes used closing) (hbody : AllLieIn body used) :
    (Parens.mk opening closing).Around (before ++ (skipped ++ used)) fun run => AllLieIn body run := by
  rw [← List.append_assoc]
  exact (h.append skipped).around hclose (allLieIn_mono hbody (List.suffix_append ..).isInfix)

/-- Bindings, and then a body that ends with the closing parenthesis. -/
theorem Opens.around_bindings {before inits : List Token} {bindings : List (String × Expr)}
    {body : List Expr} (h : Opens before opening) (hinits : InitsLieIn bindings inits)
    (hclose : Closes used closing) (hbody : AllLieIn body used) :
    (Parens.mk opening closing).Around (before ++ (inits ++ used)) fun run =>
      InitsLieIn bindings run ∧ AllLieIn body run := by
  have hinits' : InitsLieIn bindings (before ++ inits ++ used) :=
    initsLieIn_mono hinits (List.infix_append before inits used)
  rw [← List.append_assoc]
  refine (h.append inits).around hclose ⟨hinits', ?_⟩
  exact allLieIn_mono hbody (List.suffix_append ..).isInfix

/-! ### The parts of forms -/

theorem readOperands_uses (hinner : inner.Placed) :
    Uses (readOperands inner scope) fun _ used r => Closes used r.2 ∧ AllLieIn r.1 used := by
  have hforms := Uses.untilClose Expr.LiesIn (fun _ _ _ => .mono) fun blame => hinner.form blame scope
  exact hforms.imp fun _ used r hr => ⟨hr.1, allLieIn_iff.mpr hr.2⟩

theorem readBody_uses (hinner : inner.Placed) (form : Keyword) :
    Uses (readBody inner scope opening form) fun _ used r => Closes used r.2 ∧ AllLieIn r.1 used := by
  refine (readOperands_uses hinner).next fun p used r hr => ?_
  simp only
  split
  next => exact nofun
  next =>
    refine .pure fun _ => ?_
    rw [List.append_nil]
    exact hr

theorem readBinding_uses (hinner : inner.Placed) (form : Keyword) (seen : List String) :
    Uses (readBinding inner scope form seen) fun _ used b => b.2.LiesIn used := by
  have hname : Uses (identifier .variableName) fun _ _ _ => True :=
    .of_takes fun {_ a _} h => ⟨[.identifier a.1], identifier_eq_ok h⟩
  refine hname.next fun p used name _ => ?_
  simp only
  split
  next => exact nofun
  next =>
    -- the initialiser stands between the name and the closing parenthesis of the binding
    refine Uses.position.next fun _ _ blame ⟨hnothing, _⟩ => ?_
    refine (hinner.form blame scope).next fun _ part e he => ?_
    refine (Uses.expect (by decide) _).next fun _ close t hclose => .pure fun _ => ?_
    rw [hnothing]
    exact he.2.mono (List.infix_append' used part (close ++ []))

theorem readBindings_uses (hinner : inner.Placed) (form : Keyword) :
    Uses (readBindings inner scope form) fun _ used bindings => InitsLieIn bindings used := by
  refine (Uses.expect (by decide) _).next fun _ opening t _ => ?_
  refine (Uses.collect (fun b => b.2.LiesIn) (fun _ _ _ => .mono)
    (fun seen => ?_) []).imp fun _ used bindings hbindings => ?_
  · refine Uses.token.next fun _ used t ht => ?_
    split
    next => exact .pure fun _ => nofun
    next hkind =>
      refine (readBinding_uses hinner form seen).next fun _ part b hb => .pure fun _ b' s' hsome => ?_
      cases hsome
      rw [ht (by rw [hkind]; nofun), List.append_nil]
      exact ⟨List.cons_ne_nil _ _, hb.mono (List.suffix_append ..).isInfix⟩
    next => exact .unexpected _ _
  · exact initsLieIn_mono (initsLieIn_iff.mpr hbindings) (List.suffix_append ..).isInfix

/-! ### Forms in parentheses -/

section
variable (hinner : inner.Placed)
include hinner

theorem readUnary_uses (op : UnaryOp) :
    Uses (readUnary inner scope opening op) fun _ used e => Behind opening used e := by
  refine (readOperands_uses hinner).next fun _ used r ⟨hclose, hparts⟩ => ?_
  split
  next operand closing =>
    refine .pure fun _ before hopen => ?_
    rw [List.append_nil]
    exact hopen.around hclose (hparts.1.mono (List.suffix_append ..).isInfix)
  next => exact .fail _ _

theorem readBinary_uses (op : BinaryOp) :
    Uses (readBinary inner scope opening op) fun _ used e => Behind opening used e := by
  refine (readOperands_uses hinner).next fun _ used r ⟨hclose, hparts⟩ => ?_
  split
  next left right closing =>
    refine .pure fun _ before hopen => ?_
    rw [List.append_nil]
    obtain ⟨hleft, hright, -⟩ := allLieIn_mono hparts (List.suffix_append before used).isInfix
    exact hopen.around hclose ⟨hleft, hright⟩
  next => exact .fail _ _

/-- A function is read before its arguments, or stands for the opening parenthesis. -/
theorem readCall_uses {function : Expr} :
    Uses (readCall inner scope opening function) fun _ used e =>
      ∀ before, Opens before opening → function.LiesIn before → e.LiesIn (before ++ used) := by
  refine (readOperands_uses hinner).next fun _ used r ⟨hclose, hparts⟩ => ?_
  refine .pure fun _ before hopen hfun => ?_
  rw [List.append_nil]
  refine hopen.around hclose ⟨hfun.mono (List.prefix_append ..).isInfix, ?_⟩
  exact allLieIn_mono hparts (List.suffix_append ..).isInfix

/-- A form behind its keyword. -/
theorem readSpecial_uses (hsound : inner.Sound level) (k : Keyword) :
    Uses (readSpecial inner scope opening k) fun _ used e => Behind opening used e := by
  cases k with
  | if_ =>
    refine (readOperands_uses hinner).next fun _ used r ⟨hclose, hparts⟩ => ?_
    split
    next c t e closing =>
      refine .pure fun _ before hopen => ?_
      rw [List.append_nil]
      obtain ⟨hc, ht, he, -⟩ := allLieIn_mono hparts (List.suffix_append before used).isInfix
      exact hopen.around hclose ⟨hc, ht, he⟩
    next => exact .fail _ _
  | lambda =>
    refine (Uses.expect (by decide) _).next fun _ first t _ => ?_
    refine (Uses.of_takes fun h => ⟨_, readParameters_eq_ok h⟩).next fun _ names params _ => ?_
    refine (readBody_uses hinner .lambda).next fun _ used r ⟨hclose, hbody⟩ => ?_
    refine .pure fun _ before hopen => ?_
    rw [List.append_nil, ← List.append_assoc first]
    exact hopen.around_body hclose hbody
  | let_ =>
    refine (readBindings_uses hinner .let_).next fun _ inits bindings hinits => ?_
    refine (readBody_uses hinner .let_).next fun _ used r ⟨hclose, hbody⟩ => ?_
    refine .pure fun _ before hopen => ?_
    rw [List.append_nil]
    exact hopen.around_bindings hinits hclose hbody
  | letrec =>
    refine (Uses.lookAhead _).next fun _ nothing names hnothing => ?_
    refine (readBindings_uses hinner .letrec).next fun _ inits bindings hinits => ?_
    refine (readBody_uses hinner .letrec).next fun _ used r ⟨hclose, hbody⟩ => ?_
    refine .pure fun _ before hopen => ?_
    rw [hnothing, List.nil_append, List.append_nil]
    exact hopen.around_bindings hinits hclose hbody
  | begin_ =>
    refine (readOperands_uses hinner).next fun _ used r ⟨hclose, hparts⟩ => ?_
    simp only
    split
    next => exact nofun
    next =>
      refine .pure fun _ before hopen => ?_
      rw [List.append_nil]
      exact hopen.around hclose (allLieIn_mono hparts (List.suffix_append ..).isInfix)
  | car | cdr | consp => exact readUnary_uses hinner _
  | cons => exact readBinary_uses hinner .cons
  | quote =>
    refine Uses.position.next fun _ nothing blame _ => ?_
    refine (Uses.of_takes fun h => ⟨_, hsound.datum h⟩).next fun _ part d _ => ?_
    refine (Uses.expect (by decide) _).next fun _ close t hclose => .pure fun _ before hopen => ?_
    -- all but the last token come before the closing parenthesis
    have htokens : before ++ (nothing ++ (part ++ (close ++ []))) =
        (before ++ (nothing ++ part)) ++ close := by
      simp only [List.append_nil, List.append_assoc]
    rw [htokens]
    exact (hopen.append _).around ⟨[], t, hclose, rfl⟩ trivial
  | null =>
    -- `null` has been taken with the tokens before, and its span is that of the opening parenthesis
    refine (readCall_uses hinner).imp fun _ used e he before hopen => he before hopen ?_
    obtain ⟨first, more, rfl, rfl⟩ := hopen
    exact ⟨[first], (List.prefix_append ..).isInfix, first.span_covers⟩
  | define | defineMacro => exact .fail _ _

/-- A form behind its opening parenthesis. -/
theorem readCompound_uses (hsound : inner.Sound level) :
    Uses (readCompound inner scope opening) fun _ used e => Behind opening used e := by
  have hcall : ∀ blame, Uses (do readCall inner scope opening (← inner.form blame scope)) fun _ used e =>
      Behind opening used e := by
    intro blame
    refine (hinner.form blame scope).next fun _ part function hpart => ?_
    refine (readCall_uses hinner).imp fun _ used e he before hopen => ?_
    rw [← List.append_assoc]
    exact he (before ++ part) (hopen.append part) (hpart.2.mono (List.suffix_append ..).isInfix)
  -- a first token that is taken goes to the tokens before what is read behind it
  have hfirst : ∀ {r : Read Expr}, (Uses r fun _ used e => Behind opening used e) →
      Uses (do let _ ← next; r) fun _ used e => Behind opening used e := by
    intro r hr
    exact Uses.token.next fun _ used t _ => hr.imp fun _ more e he => he.append used
  refine Uses.peek.next fun _ nothing t hnothing => ?_
  rw [hnothing]
  split
  next k _ => exact hfirst (readSpecial_uses hinner hsound k)
  next o _ => exact hfirst (readBinary_uses hinner _)
  next => exact .fail _ _
  next name _ =>
    split
    next => exact hfirst (readBinary_uses hinner _)
    next => exact hcall _
  next => exact hcall _

/-! ### Templates and forms -/

theorem readTemplate_uses (hsound : inner.Sound level) :
    Uses (readTemplate inner scope) fun _ used t => used ≠ [] ∧ t.LiesIn used := by
  intro f template f' h
  obtain ⟨t, f₁, hpeek, hrest⟩ := bind_eq_ok h
  obtain ⟨rfl, f₂, hnext⟩ := peek_eq_ok hpeek
  -- the token that was looked at is taken, and then more is read
  have hfirst : ∀ {r : Read Template}, t.kind ≠ .eof →
      (do let _ ← next; r : Read Template) f₁ = .ok (template, f') →
      (Uses r fun _ used template => template.LiesIn (t :: used)) →
      ∃ used, f₁.Passes used f' ∧ used ≠ [] ∧ template.LiesIn used := by
    intro r hne hread hr
    rw [bind_of_ok hnext] at hread
    obtain ⟨used, hpasses, hlies⟩ := hr _ _ _ hread
    exact ⟨t :: used, (next_passes hnext hne).trans hpasses, List.cons_ne_nil _ _, hlies⟩
  cases hkind : t.kind with
  | comma =>
    simp only [hkind] at hrest
    refine hfirst (by rw [hkind]; nofun) hrest ?_
    refine Uses.position.next fun _ nothing blame _ => ?_
    refine (hinner.form blame scope).next fun _ part e he => .pure fun _ => ?_
    exact he.2.mono (List.infix_append' (t :: nothing) part [])
  | backquote =>
    simp only [hkind] at hrest
    cases hrest
  | leftParen =>
    simp only [hkind] at hrest
    refine hfirst (by rw [hkind]; nofun) hrest ?_
    have hitems := Uses.untilClose Template.LiesIn (fun _ _ _ => .mono)
      fun blame => hinner.template blame scope
    refine hitems.next fun _ used r ⟨hclose, hitems⟩ => .pure fun _ => ?_
    rw [List.append_nil]
    have hopen : Opens [t] t.span := ⟨t, [], rfl, rfl⟩
    refine hopen.around hclose (templatesLieIn_iff.mpr fun template htemplate => ?_)
    exact (hitems template htemplate).mono (List.suffix_cons ..).isInfix
  | _ =>
    simp only [hkind] at hrest
    obtain ⟨d, f₃, hdatum, hpure⟩ := bind_eq_ok hrest
    cases hpure
    obtain ⟨used, hpasses, hkinds⟩ := (hsound.datum hdatum).passes
    -- a datum in a template has no spans to place, but it takes a token
    refine ⟨used, hpasses, fun hnil => ?_, trivial⟩
    rw [hnil] at hkinds
    exact d.skips.ne_nil hkinds.symm

omit hinner in
/-- What is read from here on has a span that ends where it ends. -/
theorem Uses.spanned {α β : Type} {x : Nat → Read β} {Part : β → List Token → Prop}
    (hx : ∀ blame, Uses (x blame) fun _ used b => Part b used) (make : Span → β → α) (start : Nat) :
    Uses (do
      let b ← x (← Read.position)
      return make ⟨start, ← Read.position⟩ b) fun p used a =>
        ∃ b, a = make ⟨start, endOf p used⟩ b ∧ Part b used := by
  -- the second offset that is asked for is where the tokens of the part end
  refine Uses.position.bind fun p nothing blame ⟨hnothing, _⟩ => ?_
  refine (hx blame).bind fun p' used b hb => ?_
  refine Uses.position.next fun q nothing' stop ⟨hnothing', hstop⟩ => .pure fun _ hq hp => ⟨b, ?_, ?_⟩
  · rw [hstop, hq, hp, hnothing, hnothing', List.append_nil, List.append_nil]
    rfl
  · rw [hnothing, hnothing', List.append_nil, List.append_nil]
    exact hb

theorem readForm_uses (hsound : inner.Sound level) :
    Uses (readForm inner scope) fun _ used e => used ≠ [] ∧ e.LiesIn used := by
  refine Uses.token.bind fun p used t ht => ?_
  -- a form of one token has the span of the token
  have hatom : t.kind ≠ .eof → used ++ [] ≠ [] ∧ t.span.LiesIn (used ++ []) := by
    intro hne
    rw [ht hne]
    exact ⟨List.cons_ne_nil _ _, t.span_covers.liesIn⟩
  cases hkind : t.kind with
  | number n | boolean b | string text => exact .pure fun _ _ => hatom (by rw [hkind]; nofun)
  | identifier name =>
    dsimp only
    split
    next => exact .pure fun _ _ => hatom (by rw [hkind]; nofun)
    next => exact nofun
  | keyword k =>
    cases k with
    | null => exact .pure fun _ _ => hatom (by rw [hkind]; nofun)
    | _ => exact .unexpected _ _
  | quote =>
    rw [ht (by rw [hkind]; nofun)]
    have hdatum : ∀ blame, Uses (inner.datum blame) fun _ _ _ => True :=
      fun blame => .of_takes fun h => ⟨_, hsound.datum h⟩
    refine (Uses.spanned hdatum Expr.quote t.span.start).imp fun q more e he hq => ?_
    -- the span starts with the quotation mark and ends where the datum does
    obtain ⟨d, rfl, -⟩ := he
    rw [hq]
    exact ⟨List.cons_ne_nil _ _, Span.Covers.liesIn ⟨t, more, rfl, rfl⟩⟩
  | backquote =>
    rw [ht (by rw [hkind]; nofun)]
    have htemplate := fun blame => (hinner.template blame scope).imp fun _ _ _ h => h.2
    refine (Uses.spanned htemplate Expr.quasi t.span.start).imp fun q more e he hq => ?_
    obtain ⟨template, rfl, hlies⟩ := he
    rw [hq]
    refine ⟨List.cons_ne_nil _ _, Span.Covers.liesIn ⟨t, more, rfl, rfl⟩, ?_⟩
    exact hlies.mono (List.suffix_cons ..).isInfix
  | leftParen =>
    rw [ht (by rw [hkind]; nofun)]
    refine (readCompound_uses hinner hsound).imp fun q more e he _ => ⟨List.cons_ne_nil _ _, ?_⟩
    exact he [t] ⟨t, [], rfl, rfl⟩
  | comma => exact .fail _ _
  | operator o | rightParen | eof => exact .unexpected _ _

end

end

/-- **All spans of a form that is read reach over tokens that it was read from.** -/
theorem readers_placed (level : Nat) : (readers level).Placed := by
  induction level with
  | zero => exact ⟨fun _ _ => .fail _ _, fun _ _ => .fail _ _⟩
  | succ level ih =>
    have hsound := readers_sound level
    exact ⟨fun _ _ => readForm_uses ih hsound, fun _ _ => readTemplate_uses ih hsound⟩

/-! ## Programs -/

section
variable {inner : Readers} {level : Nat} {scope : Scope} {opening : Span} (hinner : inner.Placed)
  (hsound : inner.Sound level)
include hinner

/-- A definition behind its keyword. -/
theorem readDefinition_uses : Uses (readDefinition inner scope opening) fun _ used form =>
    ∀ before, Opens before opening → form.LiesIn (before ++ used) := by
  refine Uses.token.next fun _ first t _ => ?_
  split
  next =>
    have hname : Uses (identifier .functionName) fun _ _ _ => True :=
      .of_takes fun {_ a _} h => ⟨[.identifier a.1], identifier_eq_ok h⟩
    refine hname.next fun _ function name _ => ?_
    refine (Uses.of_takes fun h => ⟨_, readParameters_eq_ok h⟩).next fun _ names params _ => ?_
    refine (readBody_uses hinner .define).next fun _ used r ⟨hclose, hbody⟩ => ?_
    refine .pure fun _ before hopen => ?_
    rw [List.append_nil, ← List.append_assoc function, ← List.append_assoc first]
    exact hopen.around_body hclose hbody
  next =>
    refine Uses.position.next fun _ nothing blame _ => ?_
    refine (hinner.form blame _).next fun _ part e he => ?_
    refine (Uses.expect (by decide) _).next fun _ close t hclose => .pure fun _ before hopen => ?_
    have htokens : before ++ (first ++ (nothing ++ (part ++ (close ++ [])))) =
        (before ++ (first ++ nothing)) ++ part ++ close := by
      simp only [List.append_nil, List.append_assoc]
    rw [htokens]
    refine ((hopen.append _).append part).around ⟨[], t, hclose, rfl⟩ (he.2.mono ?_)
    exact List.infix_append _ part close
  next => exact .unexpected _ _

include hsound

theorem readTopForm_uses :
    Uses (readTopForm inner scope) fun _ used form => used ≠ [] ∧ form.LiesIn used := by
  intro f form f' h
  obtain ⟨f₀, f₁, hget, hrest⟩ := bind_eq_ok h
  cases hget
  obtain ⟨opening, span, rest, htokens, hdefine⟩ | hvalue := eq_ok_of_define hrest
  -- a definition: the two tokens that show it are the first of the form
  · rw [bind_of_ok (next_cons htokens), bind_of_ok (next_cons rfl)] at hdefine
    obtain ⟨used, hpasses, hlies⟩ := readDefinition_uses hinner _ _ _ hdefine
    have hstart : f.Passes [⟨.leftParen, opening⟩, ⟨.keyword .define, span⟩]
        { f with tokens := rest, position := span.stop } := ⟨htokens, rfl⟩
    exact ⟨_, hstart.trans hpasses, List.cons_ne_nil _ _, hlies _ ⟨_, _, rfl, rfl⟩⟩
  · obtain ⟨t, f₁, hpeek, hread⟩ := bind_eq_ok hvalue
    obtain ⟨e, f₂, hform, hstop⟩ := bind_eq_ok hread
    obtain ⟨stop, f₃, hpos, hpure⟩ := bind_eq_ok hstop
    cases hpos
    cases hpure
    obtain ⟨rfl, f₄, hnext⟩ := peek_eq_ok hpeek
    obtain ⟨used, hpasses, hne, hlies⟩ := readForm_uses hinner hsound _ _ _ hform
    obtain ⟨first, more, rfl⟩ := List.exists_cons_of_ne_nil hne
    -- the token that was looked at is the first that is taken
    rw [next_cons hpasses.tokens] at hnext
    cases hnext
    refine ⟨_, hpasses, hne, ⟨_, List.infix_rfl, t, more, rfl, ?_⟩, hlies⟩
    rw [hpasses.position]
    rfl

theorem tryTopForm_uses : UsesForEach (tryTopForm inner) TopForm.LiesIn := by
  refine fun scope => Uses.peek.next fun _ nothing t hnothing => ?_
  rw [hnothing]
  split
  next => exact .pure fun _ => nofun
  next => exact .fail _ _
  next =>
    refine (readTopForm_uses hinner hsound).next fun _ used form hform => .pure fun _ form' s' hsome => ?_
    cases hsome
    rw [List.append_nil]
    exact hform

end

/-- All spans of a program reach over tokens of its source. -/
theorem Program.liesIn_of_ofRun {globals : List String} {r : TokenRun} {p : Program}
    (h : Program.ofRun globals r = .ok p) : ∀ form ∈ p, form.LiesIn r.tokens := by
  have hsound := readers_sound (maxNesting - 1)
  unfold Program.ofRun StateT.run' at h
  cases hread : readProgram (readers (maxNesting - 1)) { globals } (.ofRun r) with
  | error e =>
    rw [hread] at h
    cases h
  | ok result =>
    rw [hread] at h
    cases h
    obtain ⟨f', hcollects⟩ := collects_of_readProgram hsound (by decide) hread
    obtain ⟨used, hpasses, hforms⟩ := hcollects.passes TopForm.LiesIn (fun _ _ _ => .mono)
      (tryTopForm_uses (readers_placed _) hsound)
    have htokens : r.tokens = used ++ f'.tokens := hpasses.tokens
    rw [htokens]
    exact fun form hform => (hforms form hform).mono (List.prefix_append ..).isInfix

end LispMachine
