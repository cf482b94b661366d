import Mathlib.Data.List.Forall2
import LispMachine.Proofs.Bare
import LispMachine.Proofs.Reading

/-!
# Readers do not see the layout

Two feeds mirror each other if they have the same kinds of tokens. Every reader does on both the same
steps: it gives the same tree, but for spans and addresses, and leaves feeds that mirror each other
again, or it stops on both for the same reason (`Read.Mirrors`). What the offsets and the spans are makes
no difference to that, although readers pass them on to the trees and to the faults.

The relation is between two readers and not between two runs of one, since what follows a token is a
different reader on each side: the token is an argument of it. `Read.Mirrors.bind_token` makes this plain,
with one kind and two spans. Results are compared by a function of the caller's choice, which forgets what
the sides need not share.

The lemmas follow the readers: first what all of them are made of, then one lemma for each production,
and then the levels of nesting by induction (`readers_mirror`).
-/

namespace LispMachine

open Read

/-- Two feeds with the same kinds of tokens, behind which both sources end. -/
structure Feed.Mirrors (f g : Feed) : Prop where
  kinds : f.tokens.map Token.kind = g.tokens.map Token.kind
  ends : ∃ stop, f.ending = .eof stop
  ends' : ∃ stop, g.ending = .eof stop

/-- Two faults for the same reason, wherever they are. -/
inductive Fault.Mirrors : Fault → Fault → Prop
  | malformed (offset offset' : Nat) (c : Complaint) : Mirrors (.malformed offset c) (.malformed offset' c)
  | unbound (name : String) : Mirrors (.unbound name) (.unbound name)

section
variable {α β γ δ σ : Type}

/-- Two results that are the same as far as a function can tell, and leave feeds that mirror each other. -/
inductive Mirrored (φ : α → γ) : Except Fault (α × Feed) → Except Fault (α × Feed) → Prop
  | ok {a b : α} {f g : Feed} (hsame : φ a = φ b) (hfeeds : f.Mirrors g) :
    Mirrored φ (.ok (a, f)) (.ok (b, g))
  | error {e e' : Fault} (hfaults : e.Mirrors e') : Mirrored φ (.error e) (.error e')

/-- Two readers that have such results on feeds that mirror each other. -/
def Read.Mirrors (φ : α → γ) (x y : Read α) : Prop :=
  ∀ f g : Feed, f.Mirrors g → Mirrored φ (x f) (y g)

namespace Feed.Mirrors
variable {f g : Feed}

/-- Both feeds are at the end, or both have a next token of the same kind. -/
theorem cases_tokens (h : f.Mirrors g) :
    (f.tokens = [] ∧ g.tokens = []) ∨ ∃ t u rest rest', f.tokens = t :: rest ∧ g.tokens = u :: rest' ∧
      t.kind = u.kind ∧ rest.map Token.kind = rest'.map Token.kind := by
  have hkinds := h.kinds
  cases hf : f.tokens with
  | nil =>
    rw [hf] at hkinds
    exact .inl ⟨rfl, List.map_eq_nil_iff.mp hkinds.symm⟩
  | cons t rest =>
    rw [hf, List.map_cons] at hkinds
    obtain ⟨u, rest', hg, hu, hrest⟩ := List.map_eq_cons_iff.mp hkinds.symm
    exact .inr ⟨t, u, rest, rest', rfl, hg, hu.symm, hrest.symm⟩

theorem length_eq (h : f.Mirrors g) : f.tokens.length = g.tokens.length := by
  rw [← List.length_map Token.kind, h.kinds, List.length_map]

end Feed.Mirrors

namespace Read.Mirrors
variable {φ : α → γ} {ψ : β → δ}

theorem pure {a b : α} (h : φ a = φ b) : Mirrors φ (pure a) (pure b) :=
  fun _ _ hfg => .ok h hfg

theorem bind {x y : Read α} {k l : α → Read β} (hx : Mirrors φ x y)
    (hk : ∀ a b, φ a = φ b → Mirrors ψ (k a) (l b)) : Mirrors ψ (x >>= k) (y >>= l) := by
  intro f g hfg
  have hfirst := hx f g hfg
  generalize hrun : x f = out at hfirst
  generalize hrun' : y g = out' at hfirst
  cases hfirst with
  | ok hsame hfeeds =>
    rw [bind_of_ok hrun, bind_of_ok hrun']
    exact hk _ _ hsame _ _ hfeeds
  | error hfaults =>
    rw [bind_of_error hrun, bind_of_error hrun']
    exact .error hfaults

theorem fail {offset offset' : Nat} {c : Complaint} : Mirrors φ (fail offset c) (fail offset' c) :=
  fun _ _ _ => .error (.malformed offset offset' c)

theorem fail_of_eq {offset offset' : Nat} {c c' : Complaint} (h : c = c') :
    Mirrors φ (Read.fail offset c) (Read.fail offset' c') :=
  h ▸ fail

theorem unexpected {kind : TokenKind} {span span' : Span} {expected : Expectation} :
    Mirrors φ (unexpected ⟨kind, span⟩ expected) (unexpected ⟨kind, span'⟩ expected) :=
  fun _ _ _ => .error (.malformed _ _ _)

/-- What is done with a token of one kind, wherever it stands. -/
theorem bind_token {x y : Read Token} {k l : Token → Read β} (hx : Mirrors Token.kind x y)
    (hk : ∀ kind span span', Mirrors ψ (k ⟨kind, span⟩) (l ⟨kind, span'⟩)) :
    Mirrors ψ (x >>= k) (y >>= l) := by
  refine bind hx fun t u h => ?_
  obtain ⟨kind, span⟩ := t
  obtain ⟨_, span'⟩ := u
  obtain rfl : kind = _ := h
  exact hk kind span span'

theorem unbound (name : String) : Mirrors φ (throw (.unbound name)) (throw (.unbound name)) :=
  fun _ _ _ => .error (.unbound name)

theorem next : Mirrors Token.kind next next := by
  intro f g hfg
  -- at the end both sources give the token that stands for it, again and again
  obtain ⟨hf, hg⟩ | ⟨t, u, rest, rest', hf, hg, hkind, hrest⟩ := hfg.cases_tokens
  · obtain ⟨stop, hends⟩ := hfg.ends
    obtain ⟨stop', hends'⟩ := hfg.ends'
    unfold Read.next
    rw [hf, hg, hends, hends']
    exact .ok rfl hfg
  · rw [next_cons hf, next_cons hg]
    exact .ok hkind ⟨hrest, hfg.ends, hfg.ends'⟩

theorem peek : Mirrors Token.kind peek peek := by
  intro f g hfg
  unfold Read.peek
  obtain ⟨hf, hg⟩ | ⟨t, u, rest, rest', hf, hg, hkind, -⟩ := hfg.cases_tokens
  · obtain ⟨stop, hends⟩ := hfg.ends
    obtain ⟨stop', hends'⟩ := hfg.ends'
    rw [hf, hg, hends, hends']
    exact .ok rfl hfg
  · rw [hf, hg]
    exact .ok hkind hfg

theorem position : Mirrors (fun _ => ()) position position :=
  fun _ _ hfg => .ok rfl hfg

theorem expect (kind : TokenKind) (expected : Expectation) :
    Mirrors Token.kind (expect kind expected) (expect kind expected) := by
  refine bind_token next fun kind' span span' => ?_
  by_cases hkind : kind' = kind
  · simp only [if_pos hkind]
    exact pure rfl
  · simp only [if_neg hkind]
    exact unexpected

theorem identifier (expected : Expectation) :
    Mirrors Prod.fst (identifier expected) (identifier expected) := by
  refine bind_token next fun kind span span' => ?_
  cases kind with
  | identifier name => exact pure rfl
  | _ => exact unexpected

theorem lookAhead {x y : Read α} (h : Mirrors φ x y) : Mirrors φ (lookAhead x) (lookAhead y) := by
  intro f g hfg
  have hahead := h f g hfg
  unfold Read.lookAhead
  generalize x f = out at hahead ⊢
  generalize y g = out' at hahead ⊢
  cases hahead with
  | ok hsame hfeeds => exact .ok hsame hfg
  | error hfaults => exact .error hfaults

end Read.Mirrors

/-- What is skipped depends on kinds only. -/
theorem skipTokens_kinds (ts us : List Token) (h : ts.map Token.kind = us.map Token.kind) (depth : Nat) :
    (skipTokens depth ts).map (List.map Token.kind) = (skipTokens depth us).map (List.map Token.kind) := by
  induction ts generalizing us depth with
  | nil =>
    obtain rfl := List.map_eq_nil_iff.mp h.symm
    rfl
  | cons t ts ih =>
    obtain ⟨u, us, rfl, hu, hus⟩ := List.map_eq_cons_iff.mp h.symm
    have hrest := fun depth => ih us hus.symm depth
    rw [skipTokens, skipTokens, hu]
    cases t.kind with
    | leftParen => exact hrest _
    | rightParen =>
      simp only
      split
      · exact congrArg some hus.symm
      · exact hrest _
    | quote | backquote | comma => exact hrest _
    | _ =>
      simp only
      split
      · exact congrArg some hus.symm
      · exact hrest _

theorem Read.Mirrors.skipDatum : Mirrors id skipDatum skipDatum := by
  intro f g hfg
  have hskip := skipTokens_kinds _ _ hfg.kinds 0
  obtain ⟨stop, hends⟩ := hfg.ends
  obtain ⟨stop', hends'⟩ := hfg.ends'
  unfold Read.skipDatum
  rw [hends, hends']
  cases hf : skipTokens 0 f.tokens with
  | none =>
    rw [hf] at hskip
    rw [Option.map_eq_none_iff.mp hskip.symm]
    exact .ok rfl ⟨rfl, hfg.ends, hfg.ends'⟩
  | some rest =>
    rw [hf] at hskip
    obtain ⟨rest', hg, hrest⟩ := Option.map_eq_some_iff.mp hskip.symm
    rw [hg]
    exact .ok rfl ⟨hrest.symm, hfg.ends, hfg.ends'⟩

/-! ## Loops

A loop mirrors another if their steps do. The two feeds have equally many tokens, so that the loops try
equally often.
-/

namespace Read.Mirrors
variable {φ : α → γ}

/-- Items with the state behind each. -/
theorem collectFor {step step' : σ → Read (Option (α × σ))}
    (hstep : ∀ s, Mirrors (Option.map (Prod.map φ id)) (step s) (step' s)) (fuel : Nat) (s : σ) :
    Mirrors (List.map φ) (collectFor step fuel s) (collectFor step' fuel s) := by
  induction fuel generalizing s with
  | zero => exact pure rfl
  | succ fuel ih =>
    refine bind (hstep s) fun item item' hitem => ?_
    -- both loops end in the same round, or go on in the same state
    cases item with
    | none =>
      cases item' with
      | none => exact pure rfl
      | some found => cases hitem
    | some found =>
      cases item' with
      | none => cases hitem
      | some found' =>
        obtain ⟨a, s⟩ := found
        obtain ⟨a', s'⟩ := found'
        obtain ⟨ha, hs⟩ := Prod.mk.inj (Option.some.inj hitem)
        obtain rfl : s = s' := hs
        refine bind (ih s) fun as as' has => pure ?_
        rw [List.map_cons, List.map_cons, ha, has]

theorem collect {step step' : σ → Read (Option (α × σ))}
    (hstep : ∀ s, Mirrors (Option.map (Prod.map φ id)) (step s) (step' s)) (s : σ) :
    Mirrors (List.map φ) (collect step s) (collect step' s) := by
  intro f g hfg
  have hfor := collectFor hstep (f.tokens.length + 1) s f g hfg
  -- the rounds of a loop are as many as tokens are left, so both loops may go as far
  rw [hfg.length_eq] at hfor
  have hget : ∀ (step : σ → Read (Option (α × σ))) (f : Feed),
      Read.collect step s f = Read.collectFor step (f.tokens.length + 1) s f := fun _ _ => rfl
  rw [hget, hget, hfg.length_eq]
  exact hfor

theorem untilClose {item item' : Nat → Read α} (hitem : ∀ i j, Mirrors φ (item i) (item' j)) :
    Mirrors (fun p => p.1.map φ) (untilClose item) (untilClose item') := by
  refine bind (collect (fun _ => ?_) ()) fun as as' (has : as.map φ = as'.map φ) => ?_
  · refine bind_token peek fun kind span span' => ?_
    -- the step only looks at the next token, and the kind is all that it looks at
    by_cases hclose : kind = .rightParen
    · simp only [if_pos hclose]
      exact pure rfl
    · simp only [if_neg hclose]
      refine bind (hitem _ _) fun a a' ha => pure ?_
      exact congrArg (fun a => some (a, ())) ha
  · exact bind next fun t u _ => pure has

end Read.Mirrors

end

/-! ## Data and templates -/

/-- Readers that give the same trees, but for spans and addresses, whichever offset they are to blame. -/
structure Readers.Mirror (inner : Readers) : Prop where
  form : ∀ i j scope, Mirrors Expr.bare (inner.form i scope) (inner.form j scope)
  datum : ∀ i j, Mirrors id (inner.datum i) (inner.datum j)
  template : ∀ i j scope, Mirrors Template.bare (inner.template i scope) (inner.template j scope)

section
variable {inner : Readers} (hinner : inner.Mirror)
include hinner

open Read.Mirrors

theorem readDatum_mirrors : Mirrors id (readDatum inner) (readDatum inner) := by
  -- the two sides are the same reader, on feeds that need not be the same
  have hmark : ∀ mark : Mark, Mirrors id
      (do return .marked mark (← inner.datum (← position)) : Read Datum)
      (do return .marked mark (← inner.datum (← position)) : Read Datum) := by
    intro mark
    refine bind position fun i j _ => bind (hinner.datum i j) fun d d' hd => pure ?_
    exact congrArg (Datum.marked mark) hd
  refine bind_token next fun kind span span' => ?_
  cases kind with
  | leftParen =>
    refine bind (untilClose hinner.datum) fun (items, _) (items', _) hitems => pure ?_
    rw [List.map_id, List.map_id] at hitems
    exact congrArg Datum.list hitems
  | quote => exact hmark .quote
  | backquote => exact hmark .quasiquote
  | comma => exact hmark .unquote
  | rightParen | eof => exact unexpected
  | _ => exact pure rfl

theorem readTemplate_mirrors (scope : Scope) :
    Mirrors Template.bare (readTemplate inner scope) (readTemplate inner scope) := by
  refine bind_token peek fun kind span span' => ?_
  cases kind with
  | comma =>
    refine bind next fun _ _ _ => bind position fun i j _ => bind (hinner.form i j scope) fun e e' he => ?_
    exact pure (congrArg TermTemplate.hole he)
  | backquote => exact fail
  | leftParen =>
    refine bind next fun _ _ _ => bind (untilClose fun i j => hinner.template i j scope) ?_
    intro (items, closing) (items', closing') hitems
    refine pure ?_
    rw [Template.bare, Template.bare, bareItems_eq_map, bareItems_eq_map, hitems]
  | _ => exact bind (hinner.datum _ _) fun d d' hd => pure (congrArg TermTemplate.datum hd)

/-! ## The parts of forms

The names of parameters and bindings are compared as well as their forms, because the scope of what follows
is made from them.
-/

theorem readOperands_mirrors (scope : Scope) :
    Mirrors (fun p => p.1.map Expr.bare) (readOperands inner scope) (readOperands inner scope) :=
  untilClose fun i j => hinner.form i j scope

theorem readBody_mirrors (scope : Scope) (opening opening' : Span) (form : Keyword) :
    Mirrors (fun p => p.1.map Expr.bare) (readBody inner scope opening form)
      (readBody inner scope opening' form) := by
  refine bind (readOperands_mirrors hinner scope) fun (body, closing) (body', closing') hbody => ?_
  -- whether there is a body is seen without its spans
  cases body with
  | nil =>
    obtain rfl := List.map_eq_nil_iff.mp hbody.symm
    exact fail
  | cons e es =>
    obtain ⟨e', es', rfl, -⟩ := List.map_eq_cons_iff.mp hbody.symm
    exact pure hbody

omit hinner in
theorem readParameters_mirrors : Mirrors (List.map id) readParameters readParameters := by
  refine collect (fun seen => ?_) []
  refine bind_token next fun kind span span' => ?_
  cases kind with
  | rightParen => exact pure rfl
  | identifier name =>
    by_cases hseen : name ∈ seen
    · simp only [if_pos hseen]
      exact fail
    · simp only [if_neg hseen]
      exact pure rfl
  | _ => exact unexpected

theorem readBinding_mirrors (scope : Scope) (form : Keyword) (seen : List String) :
    Mirrors bareBinding (readBinding inner scope form seen) (readBinding inner scope form seen) := by
  refine bind (identifier .variableName) fun (name, span) (name', span') hname => ?_
  obtain rfl : name = name' := hname
  by_cases hseen : name ∈ seen
  · simp only [if_pos hseen]
    exact fail
  · simp only [if_neg hseen]
    refine bind position fun i j _ => bind (hinner.form i j scope) fun e e' he => ?_
    exact bind (expect .rightParen .bindingEnd) fun _ _ _ => pure (congrArg (Prod.mk name) he)

theorem readBindings_mirrors (scope : Scope) (form : Keyword) :
    Mirrors (List.map bareBinding) (readBindings inner scope form) (readBindings inner scope form) := by
  refine bind (expect .leftParen .bindingList) fun _ _ _ => collect (fun seen => ?_) []
  refine bind_token next fun kind span span' => ?_
  cases kind with
  | rightParen => exact pure rfl
  | leftParen =>
    refine bind (readBinding_mirrors hinner scope form seen) fun b b' hb => pure ?_
    have hname : b.1 = b'.1 := (Prod.mk.inj hb).1
    show some (bareBinding b, b.1 :: seen) = some (bareBinding b', b'.1 :: seen)
    rw [hb, hname]
  | _ => exact unexpected

omit hinner in
theorem tryBindingName_mirrors (more : Bool) :
    Mirrors (Option.map (Prod.map id id)) (tryBindingName more) (tryBindingName more) := by
  cases more with
  | false => exact pure rfl
  | true =>
    refine bind_token next fun kind _ _ => ?_
    -- reading ahead gives up without a complaint, and on both sides at the same token
    by_cases hopen : kind = .leftParen
    · subst hopen
      refine bind_token next fun kind _ _ => ?_
      cases kind with
      | identifier name => exact bind skipDatum fun _ _ _ => bind_token next fun _ _ _ => pure rfl
      | _ => exact pure rfl
    · simp only [ne_eq, hopen, not_false_eq_true, if_true]
      exact pure rfl

omit hinner in
theorem bindingNames_mirrors : Mirrors (List.map id) bindingNames bindingNames := by
  rw [bindingNames_def]
  refine lookAhead (bind_token next fun kind _ _ => ?_)
  by_cases hopen : kind = .leftParen
  · subst hopen
    exact collect tryBindingName_mirrors true
  · simp only [ne_eq, hopen, not_false_eq_true, if_true]
    exact pure rfl

/-! ## Forms -/

omit hinner in
/-- Expressions that are the same but for spans, one by one. -/
theorem forall₂_bare {es es' : List Expr} (h : es.map Expr.bare = es'.map Expr.bare) :
    List.Forall₂ (fun e e' => e.bare = e'.bare) es es' := by
  rwa [← List.forall₂_eq_eq_eq, List.forall₂_map_left_iff, List.forall₂_map_right_iff] at h

theorem readUnary_mirrors (scope : Scope) (opening opening' : Span) (op : UnaryOp) :
    Mirrors Expr.bare (readUnary inner scope opening op) (readUnary inner scope opening' op) := by
  refine bind (readOperands_mirrors hinner scope) fun (es, closing) (es', closing') hes => ?_
  -- the complaint about too many operands says how many there are
  have hlength := (forall₂_bare hes).length_eq
  cases forall₂_bare hes with
  | nil => exact fail
  | cons he hrest =>
    cases hrest with
    | nil => exact pure (congrArg (Term.unary op) he)
    | cons => exact fail_of_eq (congrArg _ hlength)

theorem readBinary_mirrors (scope : Scope) (opening opening' : Span) (op : BinaryOp) :
    Mirrors Expr.bare (readBinary inner scope opening op) (readBinary inner scope opening' op) := by
  refine bind (readOperands_mirrors hinner scope) fun (es, closing) (es', closing') hes => ?_
  have hlength := (forall₂_bare hes).length_eq
  cases forall₂_bare hes with
  | nil => exact fail
  | cons hleft hrest =>
    cases hrest with
    | nil => exact fail
    | cons hright hrest =>
      cases hrest with
      | nil => exact pure (congrArg₂ (Term.binary op) hleft hright)
      | cons => exact fail_of_eq (congrArg _ hlength)

theorem readCall_mirrors (scope : Scope) (opening opening' : Span) {g g' : Expr} (hg : g.bare = g'.bare) :
    Mirrors Expr.bare (readCall inner scope opening g) (readCall inner scope opening' g') := by
  refine bind (readOperands_mirrors hinner scope) fun (args, closing) (args', closing') hargs => pure ?_
  rw [Expr.bare, Expr.bare, bareAll_eq_map, bareAll_eq_map, hg, hargs]

theorem readSpecial_mirrors (scope : Scope) (opening opening' : Span) (k : Keyword) :
    Mirrors Expr.bare (readSpecial inner scope opening k) (readSpecial inner scope opening' k) := by
  cases k with
  | if_ =>
    refine bind (readOperands_mirrors hinner scope) fun (es, closing) (es', closing') hes => ?_
    have hlength := (forall₂_bare hes).length_eq
    cases forall₂_bare hes with
    | nil => exact fail
    | cons hc hrest =>
      cases hrest with
      | nil => exact fail
      | cons ht hrest =>
        cases hrest with
        | nil => exact fail
        | cons he hrest =>
          cases hrest with
          | nil =>
            refine pure ?_
            rw [Expr.bare, Expr.bare, hc, ht, he]
          | cons => exact fail_of_eq (congrArg _ hlength)
  | lambda =>
    refine bind (expect .leftParen .parameterList) fun _ _ _ => bind readParameters_mirrors ?_
    intro params params' hparams
    rw [List.map_id, List.map_id] at hparams
    subst hparams
    refine bind (readBody_mirrors hinner (scope.push params) opening opening' .lambda) ?_
    intro (body, closing) (body', closing') hbody
    refine pure ?_
    rw [Expr.bare, Expr.bare, bareAll_eq_map, bareAll_eq_map, hbody]
  | let_ =>
    refine bind (readBindings_mirrors hinner scope .let_) fun bindings bindings' hbindings => ?_
    -- the bodies are read in one and the same scope
    have hnames : bindings.map (·.1) = bindings'.map (·.1) := by
      rw [← map_fst_bareInits, bareInits_eq_map, hbindings, ← bareInits_eq_map, map_fst_bareInits]
    rw [hnames]
    refine bind (readBody_mirrors hinner _ opening opening' .let_) ?_
    intro (body, closing) (body', closing') hbody
    refine pure ?_
    rw [Expr.bare, Expr.bare, bareAll_eq_map, bareAll_eq_map, bareInits_eq_map, bareInits_eq_map,
      hbindings, hbody]
  | letrec =>
    refine bind bindingNames_mirrors fun names names' hnames => ?_
    rw [List.map_id, List.map_id] at hnames
    subst hnames
    refine bind (readBindings_mirrors hinner _ .letrec) fun bindings bindings' hbindings => ?_
    refine bind (readBody_mirrors hinner _ opening opening' .letrec) ?_
    intro (body, closing) (body', closing') hbody
    refine pure ?_
    rw [Expr.bare, Expr.bare, bareAll_eq_map, bareAll_eq_map, bareInits_eq_map, bareInits_eq_map,
      hbindings, hbody]
  | begin_ =>
    refine bind (readOperands_mirrors hinner scope) fun (es, closing) (es', closing') hes => ?_
    cases forall₂_bare hes with
    | nil => exact fail
    | cons =>
      refine pure ?_
      rw [Expr.bare, Expr.bare, bareAll_eq_map, bareAll_eq_map, hes]
  | car => exact readUnary_mirrors hinner scope opening opening' .car
  | cdr => exact readUnary_mirrors hinner scope opening opening' .cdr
  | consp => exact readUnary_mirrors hinner scope opening opening' .consp
  | cons => exact readBinary_mirrors hinner scope opening opening' .cons
  | quote =>
    refine bind position fun i j _ => bind (hinner.datum i j) fun d d' hd => ?_
    exact bind (expect .rightParen .quoteEnd) fun _ _ _ => pure (congrArg Term.quoteForm hd)
  | null => exact readCall_mirrors hinner scope opening opening' rfl
  | define | defineMacro => exact fail

theorem readCompound_mirrors (scope : Scope) (opening opening' : Span) :
    Mirrors Expr.bare (readCompound inner scope opening) (readCompound inner scope opening') := by
  -- what all tokens lead to that start an expression
  have hcall : ∀ i j : Nat, Mirrors Expr.bare
      (do readCall inner scope opening (← inner.form i scope) : Read Expr)
      (do readCall inner scope opening' (← inner.form j scope) : Read Expr) := fun i j =>
    bind (hinner.form i j scope) fun _ _ hg => readCall_mirrors hinner scope opening opening' hg
  refine bind_token peek fun kind span span' => ?_
  cases kind with
  | keyword k => exact bind next fun _ _ _ => readSpecial_mirrors hinner scope opening opening' k
  | operator o => exact bind next fun _ _ _ => readBinary_mirrors hinner scope opening opening' (.operator o)
  | rightParen => exact fail
  | identifier name =>
    -- a name that no primitive has or that is bound in the scope, which is the same on both sides
    cases hop : BinaryOp.ofName? name with
    | none =>
      simp only [hop]
      exact hcall _ _
    | some op =>
      cases hresolve : scope.resolve name with
      | none =>
        simp only [hop, hresolve]
        exact bind next fun _ _ _ => readBinary_mirrors hinner scope opening opening' op
      | some address =>
        simp only [hop, hresolve]
        exact hcall _ _
  | _ => exact hcall _ _

theorem readForm_mirrors (scope : Scope) :
    Mirrors Expr.bare (readForm inner scope) (readForm inner scope) := by
  refine bind_token next fun kind span span' => ?_
  cases kind with
  | number | boolean | string => exact pure rfl
  | identifier name =>
    cases hresolve : scope.resolve name with
    | some address =>
      simp only [hresolve]
      exact pure rfl
    | none =>
      simp only [hresolve]
      exact unbound name
  | keyword k =>
    cases k with
    | null => exact pure rfl
    | _ => exact unexpected
  | quote =>
    refine bind position fun i j _ => bind (hinner.datum i j) fun d d' hd => ?_
    exact bind position fun _ _ _ => pure (congrArg Term.quote hd)
  | backquote =>
    refine bind position fun i j _ => bind (hinner.template i j scope) fun t t' ht => ?_
    exact bind position fun _ _ _ => pure (congrArg Term.quasi ht)
  | leftParen => exact readCompound_mirrors hinner scope span span'
  | comma => exact fail
  | _ => exact unexpected

end

/-- Readers of any level do not see the layout. -/
theorem readers_mirror (level : Nat) : (readers level).Mirror := by
  induction level with
  | zero => exact ⟨fun _ _ _ => .fail, fun _ _ => .fail, fun _ _ _ => .fail⟩
  | succ level ih =>
    exact ⟨fun _ _ scope => readForm_mirrors ih scope, fun _ _ => readDatum_mirrors ih,
      fun _ _ scope => readTemplate_mirrors ih scope⟩

/-! ## Programs -/

/-- Whether tokens start with a definition. -/
def startsDefinition : List TokenKind → Bool
  | .leftParen :: .keyword .define :: _ => true
  | _ => false

theorem exists_of_startsDefinition {ts : List Token} (h : startsDefinition (ts.map Token.kind)) :
    ∃ opening span rest, ts = ⟨.leftParen, opening⟩ :: ⟨.keyword .define, span⟩ :: rest := by
  unfold startsDefinition at h
  split at h
  next kinds hkinds =>
    obtain ⟨t, rest, rfl, ht, hrest⟩ := List.map_eq_cons_iff.mp hkinds
    obtain ⟨u, rest, rfl, hu, -⟩ := List.map_eq_cons_iff.mp hrest
    exact ⟨t.span, u.span, rest, by rw [← ht, ← hu]⟩
  next => cases h

/-- A reader that looks for a definition does not find one where none starts. -/
theorem eq_of_not_startsDefinition {ts : List Token} {x : Span → Read TopForm} {y : Read TopForm} :
    ¬ startsDefinition (ts.map Token.kind) →
    (match ts with
      | ⟨.leftParen, opening⟩ :: ⟨.keyword .define, _⟩ :: _ => x opening
      | _ => y) = y := by
  intro h
  split
  · exact absurd rfl h
  · rfl

section
variable {inner : Readers} {scope : Scope} {f : Feed}

/-- The reader of a top-level form where a definition starts. -/
theorem readTopForm_define (h : startsDefinition (f.tokens.map Token.kind)) :
    readTopForm inner scope f = (do
      let t ← next
      let _ ← next
      readDefinition inner scope t.span : Read TopForm) f := by
  obtain ⟨opening, span, rest, htokens⟩ := exists_of_startsDefinition h
  have hget : readTopForm inner scope f = (do
      let _ ← next
      let _ ← next
      readDefinition inner scope opening : Read TopForm) f := by
    show (match f.tokens with
      | ⟨.leftParen, opening⟩ :: ⟨.keyword .define, _⟩ :: _ => _
      | _ => _ : Read TopForm) f = _
    rw [htokens]
  rw [hget, bind_of_ok (next_cons htokens), bind_of_ok (next_cons htokens)]

/-- The reader of a top-level form where none does. -/
theorem readTopForm_value (h : ¬ startsDefinition (f.tokens.map Token.kind)) :
    readTopForm inner scope f = (do
      let t ← peek
      let e ← readForm inner scope
      return .value ⟨t.span.start, ← position⟩ e : Read TopForm) f :=
  congrFun (eq_of_not_startsDefinition h) f

end

section
variable {inner : Readers} (hinner : inner.Mirror)
include hinner

open Read.Mirrors

theorem readDefinition_mirrors (scope : Scope) (opening opening' : Span) :
    Mirrors TopForm.bare (readDefinition inner scope opening) (readDefinition inner scope opening') := by
  refine bind_token next fun kind span span' => ?_
  cases kind with
  | leftParen =>
    refine bind (identifier .functionName) fun (name, _) (name', _) hname => ?_
    obtain rfl : name = name' := hname
    refine bind readParameters_mirrors fun params params' hparams => ?_
    rw [List.map_id, List.map_id] at hparams
    subst hparams
    refine bind (readBody_mirrors hinner _ opening opening' .define) ?_
    intro (body, closing) (body', closing') hbody
    refine pure ?_
    rw [TopForm.bare, TopForm.bare, bareAll_eq_map, bareAll_eq_map, hbody]
  | identifier name =>
    refine bind position fun i j _ => bind (hinner.form i j _) fun e e' he => ?_
    exact bind (expect .rightParen .defineEnd) fun _ _ _ =>
      pure (congrArg (TopTerm.defineVariable name) he)
  | _ => exact unexpected

theorem readTopForm_mirrors (scope : Scope) :
    Mirrors TopForm.bare (readTopForm inner scope) (readTopForm inner scope) := by
  intro f g hfg
  by_cases hdefine : startsDefinition (f.tokens.map Token.kind)
  · rw [readTopForm_define hdefine, readTopForm_define (hfg.kinds ▸ hdefine)]
    exact bind next (fun _ _ _ => bind next fun _ _ _ => readDefinition_mirrors hinner scope _ _) f g hfg
  · rw [readTopForm_value hdefine, readTopForm_value (hfg.kinds ▸ hdefine)]
    refine bind peek (fun _ _ _ => bind (readForm_mirrors hinner scope) fun e e' he => ?_) f g hfg
    exact bind position fun _ _ _ => pure (congrArg TopTerm.value he)

theorem tryTopForm_mirrors (scope : Scope) :
    Mirrors (Option.map (Prod.map TopForm.bare id)) (tryTopForm inner scope) (tryTopForm inner scope) := by
  have hform : Mirrors (Option.map (Prod.map TopForm.bare id))
      (do
        let form ← readTopForm inner scope
        return some (form, form.defined?.elim scope scope.define) : Read (Option (TopForm × Scope)))
      (do
        let form ← readTopForm inner scope
        return some (form, form.defined?.elim scope scope.define) : Read (Option (TopForm × Scope))) := by
    refine bind (readTopForm_mirrors hinner scope) fun form form' hform => pure ?_
    -- the next forms are read in the scope that has the name which this one defines
    have hdefined : form.defined? = form'.defined? := by
      rw [← TopForm.defined?_bare, hform, TopForm.defined?_bare]
    simp only [Option.map_some, Prod.map_apply, id_eq, hform, hdefined]
  refine bind_token peek fun kind span span' => ?_
  cases kind with
  | eof => exact pure rfl
  | rightParen => exact fail
  | _ => exact hform

theorem readProgram_mirrors (scope : Scope) :
    Mirrors Program.bare (readProgram inner scope) (readProgram inner scope) := by
  rw [readProgram_def]
  refine bind (collect (tryTopForm_mirrors hinner) scope) fun p p' hp => ?_
  cases p with
  | nil =>
    obtain rfl := List.map_eq_nil_iff.mp hp.symm
    -- a program without forms is refused with the token that stands where the first could be
    have hstop {kind : TokenKind} {span span' : Span} : Mirrors (id : PUnit → PUnit)
        (Read.unexpected ⟨kind, span⟩ .expression) (Read.unexpected ⟨kind, span'⟩ .expression) := unexpected
    exact bind_token peek fun _ _ _ => bind hstop fun _ _ _ => pure rfl
  | cons form rest =>
    obtain ⟨form', rest', rfl, -⟩ := List.map_eq_cons_iff.mp hp.symm
    exact pure hp

end

/-- **Programs are read alike from sources with the same tokens.** -/
theorem Program.ofRun_mirrors (globals : List String) {r r' : TokenRun}
    (hkinds : r.tokens.map Token.kind = r'.tokens.map Token.kind) {stop stop' : Nat}
    (hends : r.ending = .eof stop) (hends' : r'.ending = .eof stop') :
    (∃ p p', ofRun globals r = .ok p ∧ ofRun globals r' = .ok p' ∧ p.bare = p'.bare) ∨
      ∃ e e', ofRun globals r = .error e ∧ ofRun globals r' = .error e' ∧ e.Mirrors e' := by
  have hread := readProgram_mirrors (readers_mirror (maxNesting - 1)) { globals } (.ofRun r) (.ofRun r')
    ⟨hkinds, ⟨stop, hends⟩, ⟨stop', hends'⟩⟩
  unfold ofRun StateT.run'
  generalize readProgram (readers (maxNesting - 1)) { globals } (.ofRun r) = out at hread ⊢
  generalize readProgram (readers (maxNesting - 1)) { globals } (.ofRun r') = out' at hread ⊢
  cases hread with
  | ok hsame hfeeds => exact .inl ⟨_, _, rfl, rfl, hsame⟩
  | error hfaults => exact .inr ⟨_, _, rfl, rfl, hfaults⟩

end LispMachine
