import Mathlib.Data.List.Nodup
import Mathlib.Data.Set.List
import Mathlib.Logic.Equiv.Basic
import LispMachine.Proofs.Identifiers

/-!
# Programs with other names

A function on names renames tokens, data, expressions and programs, and the symbols in values. If it is
one-to-one and leaves the names alone that the language gives a meaning to (`Faithful`), it renames
everything at once: the tokens that a program is written with (`TopTerm.kinds_rename`), what is
well-formed (`Listing.wellFormed_rename`), and the code of the rules (`Listing.code_rename`).

A program whose identifiers are all new names has been renamed from some other program
(`Listing.exists_rename`).

A `Renaming` is a one-to-one map between identifiers, and leaves alone the few that mean something where
nothing binds them or that quoted data have marks for. It makes such a function on all names
(`Renaming.faithful`).
-/

namespace LispMachine

/-- A function on names that is one-to-one and fixes the names that the language gives a meaning to. -/
structure Faithful (f : String → String) : Prop where
  injective : Function.Injective f
  keyword : ∀ k : Keyword, f k.name = k.name
  operator : ∀ o : Operator, f o.symbol = o.symbol
  mark : ∀ m : Mark, f m.name = m.name
  conjunction : f "and" = "and"
  disjunction : f "or" = "or"

section
variable (f : String → String)

/-- A token with another name, if it is an identifier. -/
def TokenKind.rename : TokenKind → TokenKind
  | .identifier name => .identifier (f name)
  | kind => kind

/-- A word with another name, if it is an identifier. -/
def Word.rename : Word → Word
  | .identifier name => .identifier (f name)
  | w => w

mutual
/-- A datum with other names. -/
def Datum.rename : Datum → Datum
  | .literal l => .literal l
  | .word w => .word (w.rename f)
  | .list items => .list (renameData items)
  | .marked mark datum => .marked mark datum.rename
/-- Data with other names. -/
def renameData : List Datum → List Datum
  | [] => []
  | d :: ds => d.rename :: renameData ds
end

mutual
/-- An expression with other names. -/
def Term.rename : Term → Term
  | .literal l => .literal l
  | .null => .null
  | .var name => .var (f name)
  | .quote datum => .quote (datum.rename f)
  | .quoteForm datum => .quoteForm (datum.rename f)
  | .quasi template => .quasi template.rename
  | .unary op operand => .unary op operand.rename
  | .binary op left right => .binary op left.rename right.rename
  | .ifElse condition consequent alternative =>
    .ifElse condition.rename consequent.rename alternative.rename
  | .lambda params body => .lambda (params.map f) (renameTerms body)
  | .letIn bindings body => .letIn (renameInits bindings) (renameTerms body)
  | .letrec bindings body => .letrec (renameInits bindings) (renameTerms body)
  | .sequence forms => .sequence (renameTerms forms)
  | .app function args => .app function.rename (renameTerms args)
/-- Expressions with other names. -/
def renameTerms : List Term → List Term
  | [] => []
  | t :: ts => t.rename :: renameTerms ts
/-- Bindings with other names. -/
def renameInits : List (String × Term) → List (String × Term)
  | [] => []
  | (name, t) :: rest => (f name, t.rename) :: renameInits rest
/-- A template with other names. -/
def TermTemplate.rename : TermTemplate → TermTemplate
  | .hole t => .hole t.rename
  | .list items => .list (renameItems items)
  | .datum d => .datum (d.rename f)
/-- Templates with other names. -/
def renameItems : List TermTemplate → List TermTemplate
  | [] => []
  | t :: ts => t.rename :: renameItems ts
end

/-- A top-level form with other names. -/
def TopTerm.rename : TopTerm → TopTerm
  | .value t => .value (t.rename f)
  | .defineVariable name t => .defineVariable (f name) (t.rename f)
  | .defineFunction name params body => .defineFunction (f name) (params.map f) (renameTerms f body)

/-- A program with other names. -/
def Listing.rename (p : Listing) : Listing := p.map (·.rename f)

/-- A scope with other names. -/
def Scope.rename (scope : Scope) : Scope := ⟨scope.locals.map (·.map f), scope.globals.map f⟩

namespace Value

mutual
/-- A value with other symbols. -/
def rename : Value → Value
  | .symbol name => .symbol (f name)
  | .list items => .list (renameAll items)
  | .closure code env => .closure (renameAll code) env
  | v => v
/-- Values with other symbols. -/
def renameAll : List Value → List Value
  | [] => []
  | v :: vs => v.rename :: renameAll vs
end

@[simp] theorem renameAll_eq_map (vs : List Value) : renameAll f vs = vs.map (rename f) := by
  induction vs with
  | nil => rfl
  | cons v vs ih => rw [renameAll, ih, List.map_cons]

end Value

theorem renameInits_fst (bindings : List (String × Term)) :
    (renameInits f bindings).map (·.1) = (bindings.map (·.1)).map f := by
  induction bindings with
  | nil => rfl
  | cons b bs ih => rw [renameInits, List.map_cons, ih, List.map_cons, List.map_cons]

theorem renameTerms_eq_nil {ts : List Term} : renameTerms f ts = [] ↔ ts = [] := by
  cases ts <;> simp [renameTerms]

@[simp] theorem TopTerm.defined?_rename (form : TopTerm) :
    (form.rename f).defined? = form.defined?.map f := by
  cases form <;> rfl

theorem Listing.definedNames_rename (p : Listing) :
    (p.rename f).definedNames = p.definedNames.map f := by
  induction p with
  | nil => rfl
  | cons form rest ih =>
    unfold Listing.definedNames Listing.rename at ih ⊢
    rw [List.map_cons, List.filterMap_cons, List.filterMap_cons, ih, TopTerm.defined?_rename]
    cases form.defined? <;> rfl

/-! ## Tokens

A program is renamed where its tokens are: no other part of it is written with names. So it has to be shown
that the kinds of a renamed tree are the renamed kinds of the tree, form by form.
-/

theorem map_rename_inParens (kinds : List TokenKind) :
    (inParens kinds).map (·.rename f) = inParens (kinds.map (·.rename f)) := by
  rw [inParens, List.map_append]
  rfl

theorem map_rename_nameKinds (names : List String) :
    (nameKinds names).map (·.rename f) = nameKinds (names.map f) := by
  rw [nameKinds, map_rename_inParens, List.map_map, nameKinds, List.map_map]
  rfl

end

section
variable {f : String → String}

theorem Literal.kind_rename (l : Literal) : l.kind.rename f = l.kind := by
  cases l <;> rfl

theorem Mark.kind_rename (m : Mark) : m.kind.rename f = m.kind := by
  cases m <;> rfl

mutual
theorem Datum.kinds_rename : ∀ d : Datum, (d.rename f).kinds = d.kinds.map (·.rename f)
  | .literal l => congrArg (fun k => [k]) l.kind_rename.symm
  | .word (.identifier _) | .word (.keyword _) | .word (.operator _) => rfl
  | .list items => by
    rw [Datum.rename, Datum.kinds, Datum.kinds, dataKinds_rename items, map_rename_inParens]
  | .marked mark d => by
    rw [Datum.rename, Datum.kinds, Datum.kinds, d.kinds_rename, List.map_cons, mark.kind_rename]
theorem dataKinds_rename : ∀ ds : List Datum,
    dataKinds (renameData f ds) = (dataKinds ds).map (·.rename f)
  | [] => rfl
  | d :: ds => by
    rw [renameData, dataKinds, dataKinds, d.kinds_rename, dataKinds_rename ds, List.map_append]
end

theorem Faithful.token (hf : Faithful f) (op : BinaryOp) : op.token.rename f = op.token := by
  cases op with
  | cons | operator o => rfl
  | and => exact congrArg TokenKind.identifier hf.conjunction
  | or => exact congrArg TokenKind.identifier hf.disjunction

mutual
/-- A renamed expression is written with the renamed tokens. -/
theorem Term.kinds_rename (hf : Faithful f) : ∀ t : Term, (t.rename f).kinds = t.kinds.map (·.rename f)
  | .literal l => congrArg (fun k => [k]) l.kind_rename.symm
  | .null | .var _ => rfl
  | .quote d => congrArg (_ :: ·) d.kinds_rename
  | .quoteForm d => by
    rw [Term.rename, Term.kinds, Term.kinds, d.kinds_rename, map_rename_inParens]
    rfl
  | .quasi t => congrArg (_ :: ·) (t.kinds_rename hf)
  | .unary _ t => by
    rw [Term.rename, Term.kinds, Term.kinds, t.kinds_rename hf, map_rename_inParens]
    rfl
  | .binary op l r => by
    rw [Term.rename, Term.kinds, Term.kinds, l.kinds_rename hf, r.kinds_rename hf, map_rename_inParens,
      List.map_cons, List.map_append, hf.token]
  | .ifElse c t e => by
    rw [Term.rename, Term.kinds, Term.kinds, c.kinds_rename hf, t.kinds_rename hf, e.kinds_rename hf,
      map_rename_inParens, List.map_cons, List.map_append, List.map_append]
    rfl
  | .lambda params body => by
    rw [Term.rename, Term.kinds, Term.kinds, termKinds_rename hf body, map_rename_inParens, List.map_cons,
      List.map_append, map_rename_nameKinds]
    rfl
  | .letIn bindings body | .letrec bindings body => by
    rw [Term.rename, Term.kinds, Term.kinds, initKinds_rename hf bindings, termKinds_rename hf body,
      map_rename_inParens, List.map_cons, List.map_append, map_rename_inParens]
    rfl
  | .sequence forms => by
    rw [Term.rename, Term.kinds, Term.kinds, termKinds_rename hf forms, map_rename_inParens]
    rfl
  | .app g args => by
    rw [Term.rename, Term.kinds, Term.kinds, g.kinds_rename hf, termKinds_rename hf args,
      map_rename_inParens, List.map_append]
theorem termKinds_rename (hf : Faithful f) : ∀ ts : List Term,
    termKinds (renameTerms f ts) = (termKinds ts).map (·.rename f)
  | [] => rfl
  | t :: ts => by
    rw [renameTerms, termKinds, termKinds, t.kinds_rename hf, termKinds_rename hf ts, List.map_append]
theorem initKinds_rename (hf : Faithful f) : ∀ bindings : List (String × Term),
    initKinds (renameInits f bindings) = (initKinds bindings).map (·.rename f)
  | [] => rfl
  | (_, t) :: rest => by
    rw [renameInits, initKinds, initKinds, t.kinds_rename hf, initKinds_rename hf rest, List.map_append,
      map_rename_inParens]
    rfl
theorem TermTemplate.kinds_rename (hf : Faithful f) : ∀ t : TermTemplate,
    (t.rename f).kinds = t.kinds.map (·.rename f)
  | .hole t => congrArg (_ :: ·) (t.kinds_rename hf)
  | .datum d => d.kinds_rename
  | .list items => by
    rw [TermTemplate.rename, TermTemplate.kinds, TermTemplate.kinds, itemKinds_rename hf items,
      map_rename_inParens]
theorem itemKinds_rename (hf : Faithful f) : ∀ ts : List TermTemplate,
    itemKinds (renameItems f ts) = (itemKinds ts).map (·.rename f)
  | [] => rfl
  | t :: ts => by
    rw [renameItems, itemKinds, itemKinds, t.kinds_rename hf, itemKinds_rename hf ts, List.map_append]
end

theorem TopTerm.kinds_rename (hf : Faithful f) (form : TopTerm) :
    (form.rename f).kinds = form.kinds.map (·.rename f) := by
  cases form with
  | value t => exact t.kinds_rename hf
  | defineVariable name t =>
    rw [TopTerm.rename, TopTerm.kinds, TopTerm.kinds, t.kinds_rename hf, map_rename_inParens]
    rfl
  | defineFunction name params body =>
    rw [TopTerm.rename, TopTerm.kinds, TopTerm.kinds, termKinds_rename hf, map_rename_inParens,
      List.map_cons, List.map_append, map_rename_nameKinds]
    rfl

theorem Listing.kinds_rename (hf : Faithful f) (p : Listing) :
    (p.rename f).kinds = p.kinds.map (·.rename f) := by
  rw [Listing.kinds, Listing.kinds, Listing.rename, List.flatMap_map, List.map_flatMap]
  exact List.flatMap_congr fun form _ => form.kinds_rename hf

theorem TokenKind.rename_injective (hf : Function.Injective f) :
    Function.Injective (TokenKind.rename f) := by
  intro a b h
  cases a with
  | identifier a =>
    cases b with
    | identifier b => rw [hf (TokenKind.identifier.inj h)]
    | _ => cases h
  | _ =>
    cases b with
    | identifier b => cases h
    | _ => exact h

theorem TokenKind.exists_of_rename {kind : TokenKind} {name : String}
    (h : kind.rename f = .identifier name) : ∃ old, f old = name := by
  cases kind with
  | identifier old => exact ⟨old, TokenKind.identifier.inj h⟩
  | _ => cases h

/-! ## Scopes

A one-to-one renaming moves no name: it is found in the renamed scope where it was found before. This is the
one place where the renaming has to tell names apart.
-/

theorem lastIndex?_map (hf : Faithful f) (name : String) (names : List String) :
    lastIndex? (f name) (names.map f) = lastIndex? name names := by
  induction names with
  | nil => rfl
  | cons bound rest ih =>
    rw [List.map_cons, lastIndex?, lastIndex?, ih]
    simp only [hf.injective.eq_iff]

theorem Scope.resolveIn_map (hf : Faithful f) (name : String) (frames : List (List String)) :
    resolveIn (f name) (frames.map (·.map f)) = resolveIn name frames := by
  induction frames with
  | nil => rfl
  | cons names outer ih => rw [List.map_cons, resolveIn, resolveIn, lastIndex?_map hf, ih]

/-- A renamed name stands where the name stood. -/
theorem Scope.resolve_rename (hf : Faithful f) (scope : Scope) (name : String) :
    (scope.rename f).resolve (f name) = scope.resolve name := by
  have hframes : (scope.rename f).frames = scope.frames.map (·.map f) := by
    rw [frames, frames, List.map_append]
    rfl
  rw [resolve, hframes, resolveIn_map hf, resolve]

theorem Scope.rename_push (scope : Scope) (names : List String) :
    (scope.push names).rename f = (scope.rename f).push (names.map f) := rfl

theorem Scope.rename_globals (globals : List String) (name : String) :
    Scope.rename f { globals := globals ++ [name] } = { globals := globals.map f ++ [f name] } := by
  rw [rename, List.map_append]
  rfl

theorem Scope.rename_define (params globals : List String) (name : String) :
    Scope.rename f { locals := [params], globals := globals ++ [name] } =
      { locals := [params.map f], globals := globals.map f ++ [f name] } := by
  rw [rename, List.map_append]
  rfl

theorem BinaryOp.free_rename (hf : Faithful f) (scope : Scope) (op : BinaryOp) :
    op.Free (scope.rename f) ↔ op.Free scope := by
  -- the two names that a primitive has are among those that stay
  have hfix : ∀ {name : String}, BinaryOp.ofName? name = some op → f name = name := by
    intro name hname
    unfold BinaryOp.ofName? at hname
    split at hname
    next h => exact h ▸ hf.conjunction
    next =>
      split at hname
      next h => exact h ▸ hf.disjunction
      next => cases hname
  refine forall_congr' fun name => forall_congr' fun hname => ?_
  have hresolve := Scope.resolve_rename hf scope name
  rw [hfix hname] at hresolve
  rw [hresolve]

/-! ## Well-formed programs -/

theorem Datum.plain_rename (d : Datum) : (d.rename f).Plain ↔ d.Plain := by
  cases d with
  | marked mark d => cases mark <;> exact Iff.rfl
  | _ => exact Iff.rfl

theorem Faithful.nodup_map (hf : Faithful f) (names : List String) : (names.map f).Nodup ↔ names.Nodup :=
  List.nodup_map_iff hf.injective

mutual
/-- A renamed expression is well-formed where the renamed names are bound. -/
theorem Term.wellFormed_rename (hf : Faithful f) (scope : Scope) : ∀ t : Term,
    (t.rename f).WellFormed (scope.rename f) ↔ t.WellFormed scope
  | .literal _ | .null | .quote _ | .quoteForm _ => Iff.rfl
  | .var name => by rw [Term.rename, Term.WellFormed, Term.WellFormed, Scope.resolve_rename hf]
  | .quasi t => t.wellFormed_rename hf scope
  | .unary _ t => t.wellFormed_rename hf scope
  | .binary op l r => by
    rw [Term.rename, Term.WellFormed, Term.WellFormed, op.free_rename hf, l.wellFormed_rename hf,
      r.wellFormed_rename hf]
  | .ifElse c t e => by
    rw [Term.rename, Term.WellFormed, Term.WellFormed, c.wellFormed_rename hf, t.wellFormed_rename hf,
      e.wellFormed_rename hf]
  | .lambda params body => by
    rw [Term.rename, Term.WellFormed, Term.WellFormed, hf.nodup_map, ne_eq, renameTerms_eq_nil,
      ← Scope.rename_push, wellFormedAll_rename hf]
  | .letIn bindings body => by
    rw [Term.rename, Term.WellFormed, Term.WellFormed, renameInits_fst, hf.nodup_map, ne_eq,
      renameTerms_eq_nil, ← Scope.rename_push, wellFormedInits_rename hf, wellFormedAll_rename hf]
  | .letrec bindings body => by
    rw [Term.rename, Term.WellFormed, Term.WellFormed, renameInits_fst, hf.nodup_map, ne_eq,
      renameTerms_eq_nil, ← Scope.rename_push, wellFormedInits_rename hf, wellFormedAll_rename hf]
  | .sequence forms => by
    rw [Term.rename, Term.WellFormed, Term.WellFormed, ne_eq, renameTerms_eq_nil, wellFormedAll_rename hf]
  | .app g args => by
    rw [Term.rename, Term.WellFormed, Term.WellFormed, g.wellFormed_rename hf, wellFormedAll_rename hf]
theorem wellFormedAll_rename (hf : Faithful f) (scope : Scope) : ∀ ts : List Term,
    WellFormedAll (scope.rename f) (renameTerms f ts) ↔ WellFormedAll scope ts
  | [] => Iff.rfl
  | t :: ts => by
    rw [renameTerms, WellFormedAll, WellFormedAll, t.wellFormed_rename hf, wellFormedAll_rename hf]
theorem wellFormedInits_rename (hf : Faithful f) (scope : Scope) : ∀ bindings : List (String × Term),
    WellFormedInits (scope.rename f) (renameInits f bindings) ↔ WellFormedInits scope bindings
  | [] => Iff.rfl
  | (_, t) :: rest => by
    rw [renameInits, WellFormedInits, WellFormedInits, t.wellFormed_rename hf, wellFormedInits_rename hf]
theorem TermTemplate.wellFormed_rename (hf : Faithful f) (scope : Scope) : ∀ t : TermTemplate,
    (t.rename f).WellFormed (scope.rename f) ↔ t.WellFormed scope
  | .hole t => t.wellFormed_rename hf scope
  | .datum d => d.plain_rename
  | .list items => wellFormedItems_rename hf scope items
theorem wellFormedItems_rename (hf : Faithful f) (scope : Scope) : ∀ ts : List TermTemplate,
    WellFormedItems (scope.rename f) (renameItems f ts) ↔ WellFormedItems scope ts
  | [] => Iff.rfl
  | t :: ts => by
    rw [renameItems, WellFormedItems, WellFormedItems, t.wellFormed_rename hf, wellFormedItems_rename hf]
end

theorem TopTerm.wellFormed_rename (hf : Faithful f) (globals : List String) (form : TopTerm) :
    (form.rename f).WellFormed (globals.map f) ↔ form.WellFormed globals := by
  cases form with
  | value t => exact t.wellFormed_rename hf { globals }
  | defineVariable name t =>
    rw [TopTerm.rename, TopTerm.WellFormed, TopTerm.WellFormed, ← Scope.rename_globals,
      t.wellFormed_rename hf]
  | defineFunction name params body =>
    rw [TopTerm.rename, TopTerm.WellFormed, TopTerm.WellFormed, hf.nodup_map, ne_eq, renameTerms_eq_nil,
      ← Scope.rename_define, wellFormedAll_rename hf]

theorem TopTerm.map_append_defined (globals : List String) (form : TopTerm) :
    globals.map f ++ (form.rename f).defined?.toList = (globals ++ form.defined?.toList).map f := by
  rw [TopTerm.defined?_rename, List.map_append]
  cases form.defined? <;> rfl

theorem Listing.formsWellFormed_rename (hf : Faithful f) (globals : List String) (p : Listing) :
    (p.rename f).FormsWellFormed (globals.map f) ↔ p.FormsWellFormed globals := by
  induction p generalizing globals with
  | nil => exact Iff.rfl
  | cons form rest ih =>
    show (form.rename f).WellFormed _ ∧ Listing.FormsWellFormed _ (Listing.rename f rest) ↔ _
    rw [TopTerm.map_append_defined, ih, form.wellFormed_rename hf]
    rfl

mutual
theorem Datum.nesting_rename : ∀ d : Datum, (d.rename f).nesting = d.nesting
  | .literal _ | .word _ => rfl
  | .list items => congrArg (· + 1) (dataNesting_rename items)
  | .marked _ d => congrArg (· + 1) d.nesting_rename
theorem dataNesting_rename : ∀ ds : List Datum, dataNesting (renameData f ds) = dataNesting ds
  | [] => rfl
  | d :: ds => by rw [renameData, dataNesting, dataNesting, d.nesting_rename, dataNesting_rename ds]
end

mutual
theorem Term.nesting_rename : ∀ t : Term, (t.rename f).nesting = t.nesting
  | .literal _ | .null | .var _ => rfl
  | .quote d | .quoteForm d => congrArg (· + 1) d.nesting_rename
  | .quasi t => congrArg (· + 1) t.nesting_rename
  | .unary _ t => congrArg (· + 1) t.nesting_rename
  | .binary _ l r => by
    rw [Term.rename, Term.nesting, Term.nesting, l.nesting_rename, r.nesting_rename]
  | .ifElse c t e => by
    rw [Term.rename, Term.nesting, Term.nesting, c.nesting_rename, t.nesting_rename, e.nesting_rename]
  | .lambda _ body => congrArg (· + 1) (termsNesting_rename body)
  | .letIn bindings body | .letrec bindings body => by
    rw [Term.rename, Term.nesting, Term.nesting, initsNesting_rename bindings, termsNesting_rename body]
  | .sequence forms => congrArg (· + 1) (termsNesting_rename forms)
  | .app g args => by
    -- `null` in front of its operands counts as a token of the form, so the function has to be looked at
    have hg := g.nesting_rename
    have hargs := termsNesting_rename args
    cases g with
    | null => exact congrArg (· + 1) hargs
    | _ => exact congrArg₂ (fun a b => max a b + 1) hg hargs
theorem termsNesting_rename : ∀ ts : List Term, termsNesting (renameTerms f ts) = termsNesting ts
  | [] => rfl
  | t :: ts => by
    rw [renameTerms, termsNesting, termsNesting, t.nesting_rename, termsNesting_rename ts]
theorem initsNesting_rename : ∀ bindings : List (String × Term),
    initsNesting (renameInits f bindings) = initsNesting bindings
  | [] => rfl
  | (_, t) :: rest => by
    rw [renameInits, initsNesting, initsNesting, t.nesting_rename, initsNesting_rename rest]
theorem TermTemplate.nesting_rename : ∀ t : TermTemplate, (t.rename f).nesting = t.nesting
  | .hole t => congrArg (· + 1) t.nesting_rename
  | .datum d => congrArg (· + 1) d.nesting_rename
  | .list items => congrArg (· + 1) (itemsNesting_rename items)
theorem itemsNesting_rename : ∀ ts : List TermTemplate, itemsNesting (renameItems f ts) = itemsNesting ts
  | [] => rfl
  | t :: ts => by
    rw [renameItems, itemsNesting, itemsNesting, t.nesting_rename, itemsNesting_rename ts]
end

theorem TopTerm.nesting_rename (form : TopTerm) : (form.rename f).nesting = form.nesting := by
  cases form with
  | value t => exact t.nesting_rename
  | defineVariable name t => exact congrArg (· + 1) t.nesting_rename
  | defineFunction name params body => exact congrArg (· + 1) (termsNesting_rename body)

/-- **A renamed program is one of the language after the renamed names**, if and only if the program is
one. -/
theorem Listing.wellFormed_rename (hf : Faithful f) (globals : List String) (p : Listing) :
    (p.rename f).WellFormed (globals.map f) ↔ p.WellFormed globals := by
  -- other names nest no deeper
  have hnesting : (∀ form ∈ p.rename f, form.nesting ≤ maxNesting) ↔
      ∀ form ∈ p, form.nesting ≤ maxNesting := by
    simp only [Listing.rename, List.forall_mem_map, TopTerm.nesting_rename]
  constructor
  · rintro ⟨hne, hforms, hdepth⟩
    exact ⟨fun h => hne (List.map_eq_nil_iff.mpr h), (p.formsWellFormed_rename hf globals).mp hforms,
      hnesting.mp hdepth⟩
  · rintro ⟨hne, hforms, hdepth⟩
    exact ⟨fun h => hne (List.map_eq_nil_iff.mp h), (p.formsWellFormed_rename hf globals).mpr hforms,
      hnesting.mpr hdepth⟩

/-! ## Code

Names do not occur in code, except as quoted symbols. So the code of a renamed tree is the code of the tree
with renamed data, and its addresses are the same.
-/

theorem Literal.value_rename (l : Literal) : l.value.rename f = l.value := by
  cases l <;> rfl

theorem Faithful.word (hf : Faithful f) (w : Word) : (w.rename f).name = f w.name := by
  cases w with
  | identifier name => rfl
  | keyword k => exact (hf.keyword k).symm
  | operator o => exact (hf.operator o).symm

mutual
/-- The value of a renamed datum is the value of the datum with the renamed symbols. -/
theorem Datum.value_rename (hf : Faithful f) : ∀ d : Datum, (d.rename f).value = d.value.rename f
  | .literal l => l.value_rename.symm
  | .word w => congrArg Value.symbol (hf.word w)
  | .list items => congrArg Value.list (values_rename hf items)
  | .marked mark d => by
    rw [Datum.rename, Datum.value, Datum.value, d.value_rename hf, Value.rename, Value.renameAll,
      Value.renameAll, Value.renameAll, Value.rename, hf.mark]
theorem values_rename (hf : Faithful f) : ∀ ds : List Datum,
    Datum.values (renameData f ds) = Value.renameAll f (Datum.values ds)
  | [] => rfl
  | d :: ds => by
    rw [renameData, Datum.values, Datum.values, Value.renameAll, d.value_rename hf, values_rename hf ds]
end

mutual
theorem TermTemplate.value?_rename (hf : Faithful f) : ∀ t : TermTemplate,
    (t.rename f).value? = t.value?.map (Value.rename f)
  | .hole _ => rfl
  | .datum d => congrArg some (d.value_rename hf)
  | .list items => by
    rw [TermTemplate.rename, TermTemplate.value?, TermTemplate.value?, values?_rename hf items]
    cases TermTemplate.values? items <;> rfl
theorem values?_rename (hf : Faithful f) : ∀ ts : List TermTemplate,
    TermTemplate.values? (renameItems f ts) = (TermTemplate.values? ts).map (Value.renameAll f)
  | [] => rfl
  | t :: ts => by
    rw [renameItems, TermTemplate.values?, TermTemplate.values?, t.value?_rename hf, values?_rename hf ts]
    cases t.value? with
    | none => rfl
    | some v => cases TermTemplate.values? ts <;> rfl
end

namespace Rule

theorem rename_list (items : List Code) :
    (list items).map (Value.rename f) = list (items.map (List.map (Value.rename f))) := by
  rw [list, List.map_cons, List.map_flatMap, list, ← List.map_reverse, List.flatMap_map]
  simp only [List.map_append]
  rfl

theorem rename_sequence (codes : List Code) :
    (sequence codes).map (Value.rename f) = sequence (codes.map (List.map (Value.rename f))) := by
  induction codes with
  | nil => rfl
  | cons code rest ih =>
    cases rest with
    | nil => rfl
    | cons next rest =>
      show (code ++ op .pop :: sequence (next :: rest)).map _ = _
      rw [List.map_append, List.map_cons, ih]
      rfl

theorem rename_function (body : List Code) :
    (function body).rename f = function (body.map (List.map (Value.rename f))) := by
  rw [function, Value.rename, Value.renameAll_eq_map, List.map_append, rename_sequence]
  rfl

theorem rename_branch (code : Code) :
    (branch code).rename f = branch (code.map (Value.rename f)) := by
  rw [branch, Value.rename, Value.renameAll_eq_map, List.map_append]
  rfl

end Rule

mutual
/-- The code of a renamed expression is the code of the expression with the renamed symbols. -/
theorem Term.code_rename (hf : Faithful f) (scope : Scope) : ∀ t : Term,
    (t.rename f).code (scope.rename f) = (t.code scope).map (Value.rename f)
  | .literal l => congrArg Rule.constant l.value_rename.symm
  | .null => rfl
  | .var name => by
    rw [Term.rename, Term.code, Term.code, Scope.resolve_rename hf]
    cases scope.resolve name <;> rfl
  | .quote d | .quoteForm d => congrArg Rule.constant (d.value_rename hf)
  | .quasi t => t.code_rename hf scope
  | .unary _ t => by
    rw [Term.rename, Term.code, Term.code, t.code_rename hf, List.map_append]
    rfl
  | .binary _ l r => by
    rw [Term.rename, Term.code, Term.code, l.code_rename hf, r.code_rename hf, List.map_append,
      List.map_append]
    rfl
  | .ifElse c t e => by
    rw [Term.rename, Term.code, Term.code, c.code_rename hf, t.code_rename hf, e.code_rename hf,
      List.map_append, ← Rule.rename_branch, ← Rule.rename_branch]
    rfl
  | .lambda params body => by
    rw [Term.rename, Term.code, Term.code, ← Scope.rename_push, termCodes_rename hf,
      ← Rule.rename_function]
    rfl
  | .letIn bindings body => by
    rw [Term.rename, Term.code, Term.code, renameInits_fst, ← Scope.rename_push, termInitCodes_rename hf,
      termCodes_rename hf, List.map_append, Rule.rename_list, ← Rule.rename_function]
    rfl
  | .letrec bindings body => by
    rw [Term.rename, Term.code, Term.code, renameInits_fst, ← Scope.rename_push, termInitCodes_rename hf,
      termCodes_rename hf, List.map_append, List.map_cons, Rule.rename_list, ← Rule.rename_function]
    rfl
  | .sequence forms => by
    rw [Term.rename, Term.code, Term.code, termCodes_rename hf, Rule.rename_sequence]
  | .app g args => by
    rw [Term.rename, Term.code, Term.code, termCodes_rename hf, g.code_rename hf, List.map_append,
      List.map_append, Rule.rename_list]
    rfl
theorem termCodes_rename (hf : Faithful f) (scope : Scope) : ∀ ts : List Term,
    termCodes (scope.rename f) (renameTerms f ts) = (termCodes scope ts).map (List.map (Value.rename f))
  | [] => rfl
  | t :: ts => by
    rw [renameTerms, termCodes, termCodes, t.code_rename hf, termCodes_rename hf, List.map_cons]
theorem termInitCodes_rename (hf : Faithful f) (scope : Scope) : ∀ bindings : List (String × Term),
    termInitCodes (scope.rename f) (renameInits f bindings) =
      (termInitCodes scope bindings).map (List.map (Value.rename f))
  | [] => rfl
  | (_, t) :: rest => by
    rw [renameInits, termInitCodes, termInitCodes, t.code_rename hf, termInitCodes_rename hf,
      List.map_cons]
theorem TermTemplate.code_rename (hf : Faithful f) (scope : Scope) : ∀ t : TermTemplate,
    (t.rename f).code (scope.rename f) = (t.code scope).map (Value.rename f)
  | .hole t => t.code_rename hf scope
  | .datum d => congrArg Rule.constant (d.value_rename hf)
  | .list items => by
    rw [TermTemplate.rename, TermTemplate.code, TermTemplate.code, values?_rename hf]
    -- whether a template is a constant does not depend on its names
    cases TermTemplate.values? items with
    | some vs => rfl
    | none =>
      rw [Option.map_none]
      simp only
      rw [termItemCodes_rename hf scope items, Rule.rename_list]
theorem termItemCodes_rename (hf : Faithful f) (scope : Scope) : ∀ ts : List TermTemplate,
    termItemCodes (scope.rename f) (renameItems f ts) =
      (termItemCodes scope ts).map (List.map (Value.rename f))
  | [] => rfl
  | t :: ts => by
    rw [renameItems, termItemCodes, termItemCodes, t.code_rename hf, termItemCodes_rename hf, List.map_cons]
end

theorem TopTerm.code_rename (hf : Faithful f) (globals : List String) (form : TopTerm) :
    (form.rename f).code (globals.map f) = (form.code globals).map (Value.rename f) := by
  cases form with
  | value t => exact t.code_rename hf { globals }
  | defineVariable name t =>
    rw [TopTerm.rename, TopTerm.code, TopTerm.code, ← Scope.rename_globals, t.code_rename hf,
      List.map_append]
    rfl
  | defineFunction name params body =>
    rw [TopTerm.rename, TopTerm.code, TopTerm.code, ← Scope.rename_define, termCodes_rename hf,
      ← Rule.rename_function]
    rfl

theorem TopTerm.drop_rename (form : TopTerm) : (form.rename f).drop = form.drop.map (Value.rename f) := by
  cases form <;> rfl

/-- **The code of a renamed program is the code of the program with the renamed symbols.** -/
theorem Listing.code_rename (hf : Faithful f) (globals : List String) (p : Listing) :
    (p.rename f).code (globals.map f) = (p.code globals).map (Value.rename f) := by
  induction p generalizing globals with
  | nil => rfl
  | cons form rest ih =>
    cases rest with
    | nil => exact form.code_rename hf globals
    | cons next rest =>
      show (form.rename f).code (globals.map f) ++ (form.rename f).drop ++
          Listing.code (globals.map f ++ (form.rename f).defined?.toList)
            (Listing.rename f (next :: rest)) = _
      rw [TopTerm.map_append_defined, ih, form.code_rename hf, form.drop_rename, Listing.code,
        List.map_append, List.map_append]

/-! ## Programs that have been renamed -/

/-- Tokens of which every identifier is a new name. -/
def Renamed (f : String → String) (kinds : List TokenKind) : Prop :=
  ∀ name, .identifier name ∈ kinds → ∃ old, f old = name

namespace Renamed
variable {kinds more : List TokenKind}

theorem append (h : Renamed f (kinds ++ more)) : Renamed f kinds ∧ Renamed f more :=
  ⟨fun name hname => h name (List.mem_append_left _ hname),
    fun name hname => h name (List.mem_append_right _ hname)⟩

theorem tail {k : TokenKind} (h : Renamed f (k :: kinds)) : Renamed f kinds :=
  fun name hname => h name (List.mem_cons_of_mem _ hname)

theorem parens (h : Renamed f (inParens kinds)) : Renamed f kinds :=
  h.append.1.tail

theorem names {names : List String} (h : Renamed f (nameKinds names)) :
    ∃ old : List String, old.map f = names := by
  have hnames : names ∈ Set.range (List.map f) := by
    -- a list over the range of a function is in the range of the function on lists
    rw [Set.range_list_map]
    intro name hname
    exact h.parens name (List.mem_map_of_mem hname)
  exact hnames

end Renamed

mutual
theorem Datum.exists_rename : ∀ d : Datum, Renamed f d.kinds → ∃ old : Datum, old.rename f = d
  | .literal l, _ => ⟨.literal l, rfl⟩
  | .word (.keyword k), _ => ⟨.word (.keyword k), rfl⟩
  | .word (.operator o), _ => ⟨.word (.operator o), rfl⟩
  | .word (.identifier name), h => by
    obtain ⟨old, rfl⟩ := h name List.mem_cons_self
    exact ⟨.word (.identifier old), rfl⟩
  | .list items, h => by
    obtain ⟨old, rfl⟩ := exists_renameData items h.parens
    exact ⟨.list old, rfl⟩
  | .marked mark d, h => by
    obtain ⟨old, rfl⟩ := d.exists_rename h.tail
    exact ⟨.marked mark old, rfl⟩
theorem exists_renameData : ∀ ds : List Datum, Renamed f (dataKinds ds) →
    ∃ old : List Datum, renameData f old = ds
  | [], _ => ⟨[], rfl⟩
  | d :: ds, h => by
    obtain ⟨old, rfl⟩ := d.exists_rename h.append.1
    obtain ⟨olds, rfl⟩ := exists_renameData ds h.append.2
    exact ⟨old :: olds, rfl⟩
end

mutual
/-- An expression whose identifiers are all new names has been renamed from another one. -/
theorem Term.exists_rename : ∀ t : Term, Renamed f t.kinds → ∃ old : Term, old.rename f = t
  | .literal l, _ => ⟨.literal l, rfl⟩
  | .null, _ => ⟨.null, rfl⟩
  | .var name, h => by
    obtain ⟨old, rfl⟩ := h name List.mem_cons_self
    exact ⟨.var old, rfl⟩
  | .quote d, h => by
    obtain ⟨old, rfl⟩ := d.exists_rename h.tail
    exact ⟨.quote old, rfl⟩
  | .quoteForm d, h => by
    obtain ⟨old, rfl⟩ := d.exists_rename h.parens.tail
    exact ⟨.quoteForm old, rfl⟩
  | .quasi t, h => by
    obtain ⟨old, rfl⟩ := t.exists_rename h.tail
    exact ⟨.quasi old, rfl⟩
  | .unary op t, h => by
    obtain ⟨old, rfl⟩ := t.exists_rename h.parens.tail
    exact ⟨.unary op old, rfl⟩
  | .binary op l r, h => by
    obtain ⟨l, rfl⟩ := l.exists_rename h.parens.tail.append.1
    obtain ⟨r, rfl⟩ := r.exists_rename h.parens.tail.append.2
    exact ⟨.binary op l r, rfl⟩
  | .ifElse c t e, h => by
    obtain ⟨c, rfl⟩ := c.exists_rename h.parens.tail.append.1
    obtain ⟨t, rfl⟩ := t.exists_rename h.parens.tail.append.2.append.1
    obtain ⟨e, rfl⟩ := e.exists_rename h.parens.tail.append.2.append.2
    exact ⟨.ifElse c t e, rfl⟩
  | .lambda params body, h => by
    obtain ⟨params, rfl⟩ := h.parens.tail.append.1.names
    obtain ⟨body, rfl⟩ := exists_renameTerms body h.parens.tail.append.2
    exact ⟨.lambda params body, rfl⟩
  | .letIn bindings body, h => by
    obtain ⟨bindings, rfl⟩ := exists_renameInits bindings h.parens.tail.append.1.parens
    obtain ⟨body, rfl⟩ := exists_renameTerms body h.parens.tail.append.2
    exact ⟨.letIn bindings body, rfl⟩
  | .letrec bindings body, h => by
    obtain ⟨bindings, rfl⟩ := exists_renameInits bindings h.parens.tail.append.1.parens
    obtain ⟨body, rfl⟩ := exists_renameTerms body h.parens.tail.append.2
    exact ⟨.letrec bindings body, rfl⟩
  | .sequence forms, h => by
    obtain ⟨forms, rfl⟩ := exists_renameTerms forms h.parens.tail
    exact ⟨.sequence forms, rfl⟩
  | .app g args, h => by
    obtain ⟨g, rfl⟩ := g.exists_rename h.parens.append.1
    obtain ⟨args, rfl⟩ := exists_renameTerms args h.parens.append.2
    exact ⟨.app g args, rfl⟩
theorem exists_renameTerms : ∀ ts : List Term, Renamed f (termKinds ts) →
    ∃ old : List Term, renameTerms f old = ts
  | [], _ => ⟨[], rfl⟩
  | t :: ts, h => by
    obtain ⟨old, rfl⟩ := t.exists_rename h.append.1
    obtain ⟨olds, rfl⟩ := exists_renameTerms ts h.append.2
    exact ⟨old :: olds, rfl⟩
theorem exists_renameInits : ∀ bindings : List (String × Term), Renamed f (initKinds bindings) →
    ∃ old : List (String × Term), renameInits f old = bindings
  | [], _ => ⟨[], rfl⟩
  | (name, t) :: rest, h => by
    -- each binding has parentheses of its own, around its name and its initialiser
    obtain ⟨old, rfl⟩ := h.append.1.parens name List.mem_cons_self
    obtain ⟨t, rfl⟩ := t.exists_rename h.append.1.parens.tail
    obtain ⟨olds, rfl⟩ := exists_renameInits rest h.append.2
    exact ⟨(old, t) :: olds, rfl⟩
theorem TermTemplate.exists_rename : ∀ t : TermTemplate, Renamed f t.kinds →
    ∃ old : TermTemplate, old.rename f = t
  | .hole t, h => by
    obtain ⟨old, rfl⟩ := t.exists_rename h.tail
    exact ⟨.hole old, rfl⟩
  | .datum d, h => by
    obtain ⟨old, rfl⟩ := d.exists_rename h
    exact ⟨.datum old, rfl⟩
  | .list items, h => by
    obtain ⟨old, rfl⟩ := exists_renameItems items h.parens
    exact ⟨.list old, rfl⟩
theorem exists_renameItems : ∀ ts : List TermTemplate, Renamed f (itemKinds ts) →
    ∃ old : List TermTemplate, renameItems f old = ts
  | [], _ => ⟨[], rfl⟩
  | t :: ts, h => by
    obtain ⟨old, rfl⟩ := t.exists_rename h.append.1
    obtain ⟨olds, rfl⟩ := exists_renameItems ts h.append.2
    exact ⟨old :: olds, rfl⟩
end

theorem TopTerm.exists_rename (form : TopTerm) (h : Renamed f form.kinds) :
    ∃ old : TopTerm, old.rename f = form := by
  cases form with
  | value t =>
    obtain ⟨t, rfl⟩ := t.exists_rename h
    exact ⟨.value t, rfl⟩
  | defineVariable name t =>
    obtain ⟨name, rfl⟩ := h.parens.tail name List.mem_cons_self
    obtain ⟨t, rfl⟩ := t.exists_rename h.parens.tail.tail
    exact ⟨.defineVariable name t, rfl⟩
  | defineFunction name params body =>
    -- the name of the function is the first of the names in the inner parentheses
    obtain ⟨names, hnames⟩ := h.parens.tail.append.1.names
    obtain ⟨name, params, rfl, rfl, rfl⟩ := List.map_eq_cons_iff.mp hnames
    obtain ⟨body, rfl⟩ := exists_renameTerms body h.parens.tail.append.2
    exact ⟨.defineFunction name params body, rfl⟩

/-- **A program whose identifiers are all new names has been renamed from another program.** -/
theorem Listing.exists_rename (p : Listing) (h : Renamed f p.kinds) : ∃ old : Listing, old.rename f = p := by
  induction p with
  | nil => exact ⟨[], rfl⟩
  | cons form rest ih =>
    obtain ⟨old, rfl⟩ := form.exists_rename h.append.1
    obtain ⟨olds, rfl⟩ := ih h.append.2
    exact ⟨old :: olds, rfl⟩

end

/-! ## Renamings of identifiers -/

/-- A one-to-one map from identifiers to identifiers. -/
structure Renaming where
  map : String → String
  isIdentifier : ∀ name, IsIdentifier name → IsIdentifier (map name)
  injective : ∀ a b, IsIdentifier a → IsIdentifier b → map a = map b → a = b
  conjunction : map "and" = "and"
  disjunction : map "or" = "or"
  quasiquote : map "quasiquote" = "quasiquote"
  unquote : map "unquote" = "unquote"

namespace Renaming
variable (ρ : Renaming)

open Classical in
/-- A renaming as a function on all names. Symbols in quoted data may be keywords and operators as well,
and these keep their names. -/
noncomputable def apply (name : String) : String := if IsIdentifier name then ρ.map name else name

theorem apply_of_isIdentifier {name : String} (h : IsIdentifier name) : ρ.apply name = ρ.map name :=
  if_pos h

theorem apply_of_not_isIdentifier {name : String} (h : ¬ IsIdentifier name) : ρ.apply name = name :=
  if_neg h

theorem apply_of_fixed {name : String} (h : ρ.map name = name) : ρ.apply name = name := by
  by_cases hname : IsIdentifier name
  · rw [ρ.apply_of_isIdentifier hname, h]
  · exact ρ.apply_of_not_isIdentifier hname

theorem apply_injective : Function.Injective ρ.apply := by
  intro a b h
  by_cases ha : IsIdentifier a <;> by_cases hb : IsIdentifier b
  · rw [ρ.apply_of_isIdentifier ha, ρ.apply_of_isIdentifier hb] at h
    exact ρ.injective a b ha hb h
  · rw [ρ.apply_of_isIdentifier ha, ρ.apply_of_not_isIdentifier hb] at h
    exact absurd (h ▸ ρ.isIdentifier a ha) hb
  · rw [ρ.apply_of_not_isIdentifier ha, ρ.apply_of_isIdentifier hb] at h
    exact absurd (h ▸ ρ.isIdentifier b hb) ha
  · rw [ρ.apply_of_not_isIdentifier ha, ρ.apply_of_not_isIdentifier hb] at h
    exact h

theorem faithful : Faithful ρ.apply where
  injective := ρ.apply_injective
  keyword k := ρ.apply_of_not_isIdentifier fun h => h.ne_keyword k rfl
  operator o := ρ.apply_of_not_isIdentifier fun h => h.ne_symbol o rfl
  mark
    | .quote => ρ.apply_of_not_isIdentifier fun h => h.ne_keyword .quote rfl
    | .quasiquote => ρ.apply_of_fixed ρ.quasiquote
    | .unquote => ρ.apply_of_fixed ρ.unquote
  conjunction := ρ.apply_of_fixed ρ.conjunction
  disjunction := ρ.apply_of_fixed ρ.disjunction

theorem map_apply {names : List String} (h : ∀ name ∈ names, IsIdentifier name) :
    names.map ρ.apply = names.map ρ.map :=
  List.map_congr_left fun name hname => ρ.apply_of_isIdentifier (h name hname)

/-- Two names change places. -/
def swap {a b : String} (ha : IsIdentifier a) (hb : IsIdentifier b)
    (hfixed : ∀ name ∈ ["and", "or", "quasiquote", "unquote"], name ≠ a ∧ name ≠ b) : Renaming where
  map := Equiv.swap a b
  isIdentifier name h := by
    rw [Equiv.swap_apply_def]
    split
    · exact hb
    · split
      · exact ha
      · exact h
  injective _ _ _ _ h := (Equiv.swap a b).injective h
  conjunction := Equiv.swap_apply_of_ne_of_ne (hfixed _ (by decide)).1 (hfixed _ (by decide)).2
  disjunction := Equiv.swap_apply_of_ne_of_ne (hfixed _ (by decide)).1 (hfixed _ (by decide)).2
  quasiquote := Equiv.swap_apply_of_ne_of_ne (hfixed _ (by decide)).1 (hfixed _ (by decide)).2
  unquote := Equiv.swap_apply_of_ne_of_ne (hfixed _ (by decide)).1 (hfixed _ (by decide)).2

end Renaming

end LispMachine
