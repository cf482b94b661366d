import LispMachine.Form.Reader
import LispMachine.Proofs.Feeds
import LispMachine.Proofs.Scoping
import LispMachine.Proofs.Spelling

/-!
# What the reader gives

A form that the reader gives was written with the tokens that the reader took, and it is scoped: each
variable has the address that its name resolves to, in the scope that the form stands in. So every
program that is read can be evaluated and compiled (`Program.scoped_of_ofRun`).

The reader is a tower of readers, of which each level calls the one below. `Readers.Sound` is what a level
promises, and the induction on the levels (`readers_sound`) is the only one on the depth of forms here: the
lemma of each reader takes the promise of the level below and follows the reader, part by part. The two
promises differ in what they need. The tokens are those of the form in any scope, and the form is scoped only
where the frames around it and the levels below it are together no more than the limit on nesting, since a
variable is marked with the number of its frames.

The initialisers of a `letrec` are read in a scope that was found by reading ahead. It is the scope of
the names that are then bound: the search skips every initialiser as the reader takes it
(`bindingNames_eq`).
-/

namespace LispMachine

open Read

/-! ## Data and templates -/

theorem Takes.inParens {f f₁ f' : Feed} {kinds : List TokenKind} (h : Takes f [.leftParen] f₁)
    (hrest : Takes f₁ (kinds ++ [.rightParen]) f') : Takes f (inParens kinds) f' :=
  h.trans hrest

/-- No more frames are bound around a place than there are levels left below the limit. -/
def Scope.LeavesRoom (scope : Scope) (level : Nat) : Prop := scope.locals.length + level ≤ maxNesting

/-- Outside of all forms there is room for all levels. -/
theorem Scope.leavesRoom_of_le {globals : List String} {level : Nat} (h : level ≤ maxNesting) :
    ({ globals } : Scope).LeavesRoom level := by
  unfold LeavesRoom
  rwa [List.length_nil, Nat.zero_add]

theorem Scope.LeavesRoom.lower {scope : Scope} {level : Nat} (h : scope.LeavesRoom (level + 1)) :
    scope.LeavesRoom level := Nat.le_of_succ_le h

theorem Scope.LeavesRoom.push {scope : Scope} {level : Nat} (h : scope.LeavesRoom (level + 1))
    (names : List String) : (scope.push names).LeavesRoom level :=
  Nat.le_trans (Nat.le_of_eq (Nat.succ_add_eq_add_succ ..)) h

/-- What the readers of one level promise: the tokens that are taken are those of the form, whatever the
scope is, and the form is scoped if the scope leaves room for these levels. -/
structure Readers.Sound (inner : Readers) (level : Nat) : Prop where
  form : ∀ {blame scope f e f'}, inner.form blame scope f = .ok (e, f') →
    Takes f e.kinds f' ∧ (scope.LeavesRoom level → e.Scoped .anywhere scope.frames)
  datum : ∀ {blame f d f'}, inner.datum blame f = .ok (d, f') → Takes f d.kinds f'
  template : ∀ {blame scope f t f'}, inner.template blame scope f = .ok (t, f') →
    Takes f t.kinds f' ∧ (scope.LeavesRoom level → t.Scoped .anywhere scope.frames)

section
variable {inner : Readers} {level : Nat} {scope : Scope} {f f' : Feed}

theorem readDatum_eq_ok (hinner : inner.Sound level) {d : Datum}
    (h : readDatum inner f = .ok (d, f')) : Takes f d.kinds f' := by
  obtain ⟨t, f₁, hnext, hrest⟩ := bind_eq_ok h
  -- the three marks are read alike: the mark, and then the datum that it is put before
  have hmark : ∀ mark : Mark, t.kind = mark.kind → mark.kind ≠ .eof →
      (do return .marked mark (← inner.datum (← position)) : Read Datum) f₁ = .ok (d, f') →
      Takes f d.kinds f' := by
    intro mark hkind hne hread
    obtain ⟨blame, f₂, hpos, hread⟩ := bind_eq_ok hread
    cases position_eq_ok hpos
    obtain ⟨d', f₃, hdatum, hpure⟩ := bind_eq_ok hread
    cases hpure
    exact (takes_of_next hnext hkind hne).trans (hinner.datum hdatum)
  cases hkind : t.kind with
  | leftParen =>
    simp only [hkind] at hrest
    obtain ⟨⟨items, closing⟩, f₂, huntil, hpure⟩ := bind_eq_ok hrest
    cases hpure
    obtain ⟨htakes, -⟩ := untilClose_eq_ok (fun _ => True)
      (fun hread => ⟨hinner.datum hread, (Datum.skips _).ne_nil, trivial⟩) huntil
    rw [Datum.kinds, dataKinds_eq_flatMap]
    exact (takes_of_next hnext hkind nofun).inParens htakes
  | quote =>
    simp only [hkind] at hrest
    exact hmark .quote hkind nofun hrest
  | backquote =>
    simp only [hkind] at hrest
    exact hmark .quasiquote hkind nofun hrest
  | comma =>
    simp only [hkind] at hrest
    exact hmark .unquote hkind nofun hrest
  | rightParen | eof =>
    simp only [hkind] at hrest
    cases hrest
  | _ =>
    simp only [hkind] at hrest
    cases hrest
    exact takes_of_next hnext hkind nofun

theorem readTemplate_eq_ok (hinner : inner.Sound level) {t : Template}
    (h : readTemplate inner scope f = .ok (t, f')) :
    Takes f t.kinds f' ∧ (scope.LeavesRoom level → t.Scoped .anywhere scope.frames) := by
  obtain ⟨token, f₁, hpeek, hrest⟩ := bind_eq_ok h
  obtain ⟨rfl, f₂, hnext⟩ := peek_eq_ok hpeek
  -- what is neither a hole nor a list has no holes in it, and is read as a datum
  have hdatum : (do return .datum (← inner.datum token.span.start) : Read Template) f₁ = .ok (t, f') →
      Takes f₁ t.kinds f' ∧ (scope.LeavesRoom level → t.Scoped .anywhere scope.frames) := by
    intro hread
    obtain ⟨d, f₃, hdatum, hpure⟩ := bind_eq_ok hread
    cases hpure
    exact ⟨hinner.datum hdatum, fun _ => trivial⟩
  cases hkind : token.kind with
  | comma =>
    simp only [hkind] at hrest
    obtain ⟨_, f₃, hnext', hrest⟩ := bind_eq_ok hrest
    rw [hnext] at hnext'
    cases hnext'
    obtain ⟨blame, f₄, hpos, hrest⟩ := bind_eq_ok hrest
    cases position_eq_ok hpos
    obtain ⟨e, f₅, hform, hpure⟩ := bind_eq_ok hrest
    cases hpure
    obtain ⟨htakes, hscoped⟩ := hinner.form hform
    exact ⟨(takes_of_next hnext hkind nofun).trans htakes, hscoped⟩
  | backquote =>
    simp only [hkind] at hrest
    cases hrest
  | leftParen =>
    simp only [hkind] at hrest
    obtain ⟨_, f₃, hnext', hrest⟩ := bind_eq_ok hrest
    rw [hnext] at hnext'
    cases hnext'
    obtain ⟨⟨items, closing⟩, f₄, huntil, hpure⟩ := bind_eq_ok hrest
    cases hpure
    obtain ⟨htakes, hscoped⟩ := untilClose_eq_ok
      (fun t => scope.LeavesRoom level → t.Scoped .anywhere scope.frames)
      (fun hread => ⟨(hinner.template hread).1, (Template.skips _).ne_nil,
        (hinner.template hread).2⟩) huntil
    refine ⟨?_, fun hroom => scopedTemplates_iff.mpr fun t ht => hscoped t ht hroom⟩
    rw [Template.kinds, templateKinds_eq_flatMap]
    exact (takes_of_next hnext hkind nofun).inParens htakes
  | _ =>
    simp only [hkind] at hrest
    exact hdatum hrest

/-! ## The parts of forms

Operands, parameters, bindings and bodies are read by loops up to a closing parenthesis. What is said of the
loop in `Feeds` is said here of each of them, with the tokens that it takes.
-/

theorem readOperands_eq_ok (hinner : inner.Sound level) {es : List Expr} {closing : Span}
    (h : readOperands inner scope f = .ok ((es, closing), f')) :
    Takes f (formKinds es ++ [.rightParen]) f' ∧
      (scope.LeavesRoom level → ScopedAll .anywhere scope.frames es) := by
  obtain ⟨htakes, hscoped⟩ := untilClose_eq_ok
    (fun e => scope.LeavesRoom level → e.Scoped .anywhere scope.frames)
    (fun hread => ⟨(hinner.form hread).1, (Expr.skips _).ne_nil, (hinner.form hread).2⟩) h
  rw [formKinds_eq_flatMap]
  exact ⟨htakes, fun hroom => scopedAll_iff.mpr fun e he => hscoped e he hroom⟩

theorem readBody_eq_ok (hinner : inner.Sound level) {opening : Span} {form : Keyword}
    {body : List Expr} {closing : Span}
    (h : readBody inner scope opening form f = .ok ((body, closing), f')) :
    Takes f (formKinds body ++ [.rightParen]) f' ∧ body ≠ [] ∧
      (scope.LeavesRoom level → ScopedAll .anywhere scope.frames body) := by
  obtain ⟨⟨es, span⟩, f₁, hoperands, hrest⟩ := bind_eq_ok h
  obtain ⟨htakes, hscoped⟩ := readOperands_eq_ok hinner hoperands
  simp only at hrest
  split at hrest
  next => cases hrest
  next hne =>
    cases hrest
    exact ⟨htakes, fun hnil => hne (List.isEmpty_iff.mpr hnil), hscoped⟩

theorem readParameters_eq_ok {params : List String} (h : readParameters f = .ok (params, f')) :
    Takes f (params.map .identifier ++ [.rightParen]) f' := by
  rw [List.map_eq_flatMap]
  -- one try that ends the parameters, which is the closing parenthesis, and one that goes on
  refine (collect_eq_ok (fun name => [TokenKind.identifier name]) [.rightParen]
    (fun _ => True) (fun _ => True) (fun hstep => ?_) (fun hstep => ?_) h).1
  · obtain ⟨t, f₁, hnext, hrest⟩ := bind_eq_ok hstep
    cases hkind : t.kind with
    | rightParen =>
      simp only [hkind] at hrest
      cases hrest
      exact ⟨takes_of_next hnext hkind nofun, trivial⟩
    | identifier name =>
      simp only [hkind] at hrest
      split at hrest <;> cases hrest
    | _ =>
      simp only [hkind] at hrest
      cases hrest
  · obtain ⟨t, f₁, hnext, hrest⟩ := bind_eq_ok hstep
    cases hkind : t.kind with
    | identifier name =>
      simp only [hkind] at hrest
      split at hrest
      · cases hrest
      · cases hrest
        exact ⟨takes_of_next hnext hkind nofun, List.cons_ne_nil _ _, trivial⟩
    | _ =>
      simp only [hkind] at hrest
      cases hrest

theorem readBinding_eq_ok (hinner : inner.Sound level) {form : Keyword} {seen : List String}
    {name : String} {e : Expr} (h : readBinding inner scope form seen f = .ok ((name, e), f')) :
    Takes f (.identifier name :: e.kinds ++ [.rightParen]) f' ∧
      (scope.LeavesRoom level → e.Scoped .anywhere scope.frames) := by
  obtain ⟨⟨name', span⟩, f₁, hname, hrest⟩ := bind_eq_ok h
  simp only at hrest
  split at hrest
  next => cases hrest
  next =>
    obtain ⟨blame, f₂, hpos, hrest⟩ := bind_eq_ok hrest
    cases position_eq_ok hpos
    obtain ⟨e', f₃, hform, hrest⟩ := bind_eq_ok hrest
    obtain ⟨t, f₄, hclose, hpure⟩ := bind_eq_ok hrest
    cases hpure
    obtain ⟨htakes, hscoped⟩ := hinner.form hform
    exact ⟨((identifier_eq_ok hname).trans htakes).trans (expect_eq_ok hclose nofun), hscoped⟩

theorem readBindings_eq_ok (hinner : inner.Sound level) {form : Keyword}
    {bindings : List (String × Expr)} (h : readBindings inner scope form f = .ok (bindings, f')) :
    Takes f (inParens (bindingKinds bindings)) f' ∧
      (scope.LeavesRoom level → ScopedInits .anywhere scope.frames bindings) := by
  obtain ⟨t, f₁, hopen, hcollect⟩ := bind_eq_ok h
  rw [scopedInits_iff, bindingKinds_eq_flatMap]
  -- as for parameters, but each item is a binding in its own parentheses
  have hparts := collect_eq_ok (fun b => inParens (.identifier b.1 :: b.2.kinds))
    [.rightParen] (fun b => scope.LeavesRoom level → b.2.Scoped .anywhere scope.frames) (fun _ => True)
    (fun hstep => ?_) (fun hstep => ?_) hcollect
  · exact ⟨(expect_eq_ok hopen nofun).inParens hparts.1, fun hroom b hb => hparts.2.1 b hb hroom⟩
  · obtain ⟨t, f₁, hnext, hrest⟩ := bind_eq_ok hstep
    cases hkind : t.kind with
    | rightParen =>
      simp only [hkind] at hrest
      cases hrest
      exact ⟨takes_of_next hnext hkind nofun, trivial⟩
    | leftParen =>
      simp only [hkind] at hrest
      obtain ⟨b, f₂, hbinding, hpure⟩ := bind_eq_ok hrest
      cases hpure
    | _ =>
      simp only [hkind] at hrest
      cases hrest
  · obtain ⟨t, f₁, hnext, hrest⟩ := bind_eq_ok hstep
    cases hkind : t.kind with
    | leftParen =>
      simp only [hkind] at hrest
      obtain ⟨b, f₂, hbinding, hpure⟩ := bind_eq_ok hrest
      cases hpure
      obtain ⟨htakes, hscoped⟩ := readBinding_eq_ok hinner hbinding
      exact ⟨(takes_of_next hnext hkind nofun).inParens htakes, List.cons_ne_nil _ _, hscoped⟩
    | _ =>
      simp only [hkind] at hrest
      cases hrest

/-! ## Reading ahead -/

/-- A try for the name of one more binding, if the last binding was closed. -/
def tryBindingName (more : Bool) : Read (Option (String × Bool)) := do
  if !more then return none
  if (← next).kind ≠ .leftParen then return none
  match (← next).kind with
  | .identifier name =>
    skipDatum
    return some (name, decide ((← next).kind = .rightParen))
  | _ => return none

theorem bindingNames_def : bindingNames = lookAhead (do
    if (← next).kind ≠ .leftParen then return []
    collect tryBindingName true) := rfl

/-- Tokens that are skipped as one datum are skipped by a reader that does not read them. -/
theorem Takes.skipDatum_eq {kinds : List TokenKind} (h : Takes f kinds f') (hskips : Skips kinds) :
    skipDatum f = .ok ((), f') := by
  obtain ⟨used, hused, hkinds⟩ := h.tokens
  have hskip := hskips used hkinds 0 f'.tokens
  rw [if_pos rfl, ← hused] at hskip
  have hfeed : f.skipTo f'.tokens = f' := h.feed.symm
  unfold skipDatum
  simp only [hskip, hfeed]

/-- A binding is skipped to its end, and its name is given. -/
theorem tryBindingName_binding {name : String} {e : Expr} {used rest : List Token}
    (hused : used.map Token.kind = inParens (.identifier name :: e.kinds))
    (hf : f.tokens = used ++ rest) :
    ∃ f', tryBindingName true f = .ok (some (name, true), f') ∧ f'.tokens = rest := by
  -- the tokens of the binding: its parenthesis, its name, its initialiser and its closing parenthesis
  obtain ⟨opening, tail, rfl, hopening, htail⟩ := List.map_eq_cons_iff.mp hused
  obtain ⟨t, tail, rfl, ht, htail⟩ := List.map_eq_cons_iff.mp htail
  obtain ⟨init, last, rfl, hinit, hlast⟩ := List.map_eq_append_iff.mp htail
  obtain ⟨closing, nothing, rfl, hclosing, hnothing⟩ := List.map_eq_cons_iff.mp hlast
  cases List.map_eq_nil_iff.mp hnothing
  have htokens : f.tokens = opening :: t :: (init ++ closing :: rest) := by
    rw [hf]
    simp only [List.cons_append, List.append_assoc, List.nil_append]
  let before : Feed := { f with tokens := init ++ closing :: rest, position := t.span.stop }
  have htakes : Takes before e.kinds (before.skipTo (closing :: rest)) := ⟨rfl, init, rfl, hinit⟩
  refine ⟨{ f with tokens := rest, position := closing.span.stop }, ?_, rfl⟩
  unfold tryBindingName
  rw [if_neg (by decide), bind_of_ok (next_cons htokens), if_neg (not_not_intro hopening),
    bind_of_ok (next_cons rfl)]
  simp only [ht]
  rw [bind_of_ok (htakes.skipDatum_eq e.skips), bind_of_ok (next_cons rfl), hclosing]
  rfl

theorem tryBindingName_close {closing : Token} {rest : List Token} (hclosing : closing.kind = .rightParen)
    (hf : f.tokens = closing :: rest) : ∃ f', tryBindingName true f = .ok (none, f') := by
  refine ⟨{ f with tokens := rest, position := closing.span.stop }, ?_⟩
  unfold tryBindingName
  rw [if_neg (by decide), bind_of_ok (next_cons hf), if_pos (by rw [hclosing]; decide)]
  rfl

/-- The search goes from binding to binding and stops at the parenthesis behind the last one. -/
theorem collects_bindingNames (bindings : List (String × Expr)) {used rest : List Token}
    {closing : Token} (hused : used.map Token.kind = bindingKinds bindings)
    (hclosing : closing.kind = .rightParen) (hf : f.tokens = used ++ closing :: rest) :
    ∃ f', Collects tryBindingName true f (bindings.map (·.1)) f' := by
  induction bindings generalizing f used with
  | nil =>
    cases List.map_eq_nil_iff.mp hused
    obtain ⟨f', hclose⟩ := tryBindingName_close hclosing hf
    exact ⟨f', .done hclose⟩
  | cons b bs ih =>
    obtain ⟨first, more, rfl, hfirst, hmore⟩ := List.map_eq_append_iff.mp hused
    rw [List.append_assoc] at hf
    obtain ⟨f₁, hname, hf₁⟩ := tryBindingName_binding hfirst hf
    obtain ⟨f', hrest⟩ := ih hmore hf₁
    exact ⟨f', .item hname hrest⟩

theorem length_le_bindingKinds (bindings : List (String × Expr)) :
    bindings.length ≤ (bindingKinds bindings).length := by
  induction bindings with
  | nil => exact Nat.le_refl 0
  | cons b bs ih =>
    rw [bindingKinds, List.length_append, inParens, List.length_append]
    simp only [List.length_cons]
    omega

/-- **Reading ahead finds the names that the bindings have.** -/
theorem bindingNames_eq {bindings : List (String × Expr)}
    (h : Takes f (inParens (bindingKinds bindings)) f') :
    bindingNames f = .ok (bindings.map (·.1), f) := by
  obtain ⟨used, hf, hused⟩ := h.tokens
  obtain ⟨opening, tail, rfl, hopening, htail⟩ := List.map_eq_cons_iff.mp hused
  obtain ⟨inner, last, rfl, hinner, hlast⟩ := List.map_eq_append_iff.mp htail
  obtain ⟨closing, nothing, rfl, hclosing, hnothing⟩ := List.map_eq_cons_iff.mp hlast
  cases List.map_eq_nil_iff.mp hnothing
  have htokens : f.tokens = opening :: (inner ++ closing :: f'.tokens) := by
    rw [hf]
    simp only [List.cons_append, List.append_assoc, List.nil_append]
  obtain ⟨f₂, hcollects⟩ := collects_bindingNames bindings hinner hclosing
    (f := { f with tokens := inner ++ closing :: f'.tokens, position := opening.span.stop }) rfl
  -- the search has a try for each token, and a binding has more than one
  have hlength : (bindings.map (·.1)).length < (inner ++ closing :: f'.tokens).length + 1 := by
    have hle := length_le_bindingKinds bindings
    rw [← hinner, List.length_map] at hle
    rw [List.length_map, List.length_append]
    omega
  have hcollect := hcollects.collectFor_eq hlength
  rw [bindingNames_def]
  unfold lookAhead
  rw [bind_of_ok (next_cons htokens), if_neg (not_not_intro hopening)]
  have hget : collect tryBindingName true
      { f with tokens := inner ++ closing :: f'.tokens, position := opening.span.stop } =
      .ok (bindings.map (·.1), f₂) := hcollect
  rw [hget]
  rfl

/-! ## Forms

One lemma for each way to go on behind an opening parenthesis. Each of them starts behind the keyword, and
the parenthesis and the keyword are put in front when the form is complete.
-/

/-- A name that stands for a primitive is how the primitive is written. -/
theorem BinaryOp.token_of_ofName? {name : String} {op : BinaryOp} (h : BinaryOp.ofName? name = some op) :
    op.token = .identifier name := by
  unfold BinaryOp.ofName? at h
  split at h
  next hand =>
    cases h
    rw [hand, BinaryOp.token]
  next =>
    split at h
    next hor =>
      cases h
      rw [hor, BinaryOp.token]
    next => cases h

theorem Scope.length_locals_push (scope : Scope) (names : List String) :
    (scope.push names).locals.length = scope.locals.length + 1 := rfl

section
variable (hinner : inner.Sound level)
include hinner

theorem readUnary_eq_ok {opening : Span} {op : UnaryOp} {e : Expr}
    (h : readUnary inner scope opening op f = .ok (e, f')) :
    ∃ kinds, Takes f (kinds ++ [.rightParen]) f' ∧ e.kinds = inParens (.keyword op.keyword :: kinds) ∧
      (scope.LeavesRoom (level + 1) → e.Scoped .anywhere scope.frames) := by
  obtain ⟨⟨operands, closing⟩, f₁, hoperands, hrest⟩ := bind_eq_ok h
  obtain ⟨htakes, hscoped⟩ := readOperands_eq_ok hinner hoperands
  match operands, hrest with
  | [operand], hrest =>
    cases hrest
    rw [formKinds, formKinds, List.append_nil] at htakes
    exact ⟨operand.kinds, htakes, rfl, fun hroom => (hscoped hroom.lower).1⟩
  | [], hrest | _ :: _ :: _, hrest => cases hrest

theorem readBinary_eq_ok {opening : Span} {op : BinaryOp} {e : Expr}
    (h : readBinary inner scope opening op f = .ok (e, f')) :
    ∃ kinds, Takes f (kinds ++ [.rightParen]) f' ∧ e.kinds = inParens (op.token :: kinds) ∧
      (scope.LeavesRoom (level + 1) → e.Scoped .anywhere scope.frames) := by
  obtain ⟨⟨operands, closing⟩, f₁, hoperands, hrest⟩ := bind_eq_ok h
  obtain ⟨htakes, hscoped⟩ := readOperands_eq_ok hinner hoperands
  match operands, hrest with
  | [left, right], hrest =>
    cases hrest
    rw [formKinds, formKinds, formKinds, List.append_nil] at htakes
    refine ⟨left.kinds ++ right.kinds, htakes, rfl, fun hroom => ?_⟩
    exact ⟨(hscoped hroom.lower).1, (hscoped hroom.lower).2.1⟩
  | [], hrest | [_], hrest | _ :: _ :: _ :: _, hrest => cases hrest

theorem readCall_eq_ok {opening : Span} (function : Expr) {e : Expr}
    (hfunction : scope.LeavesRoom (level + 1) → function.Scoped .anywhere scope.frames)
    (h : readCall inner scope opening function f = .ok (e, f')) :
    ∃ kinds, Takes f (kinds ++ [.rightParen]) f' ∧ e.kinds = inParens (function.kinds ++ kinds) ∧
      (scope.LeavesRoom (level + 1) → e.Scoped .anywhere scope.frames) := by
  obtain ⟨⟨args, closing⟩, f₁, hoperands, hrest⟩ := bind_eq_ok h
  obtain ⟨htakes, hscoped⟩ := readOperands_eq_ok hinner hoperands
  cases hrest
  exact ⟨formKinds args, htakes, rfl, fun hroom => ⟨hfunction hroom, hscoped hroom.lower⟩⟩

/-- A `letrec` is read in the scope of the names that it binds, although they are found before. -/
theorem readLetrec_eq_ok {opening : Span} {e : Expr}
    (h : readSpecial inner scope opening .letrec f = .ok (e, f')) :
    ∃ bindings body closing f₁, e = .letrec ⟨opening, closing⟩ bindings body ∧
      readBindings inner (scope.push (bindings.map (·.1))) .letrec f = .ok (bindings, f₁) ∧
      readBody inner (scope.push (bindings.map (·.1))) opening .letrec f₁ =
        .ok ((body, closing), f') := by
  obtain ⟨names, f₁, hnames, hrest⟩ := bind_eq_ok h
  obtain ⟨bindings, f₂, hbindings, hrest⟩ := bind_eq_ok hrest
  obtain ⟨⟨body, closing⟩, f₃, hread, hpure⟩ := bind_eq_ok hrest
  cases hpure
  -- reading ahead has left the feed where it was, and has found the names that were read after it
  cases lookAhead_eq_ok hnames
  rw [bindingNames_eq (readBindings_eq_ok hinner hbindings).1] at hnames
  cases hnames
  exact ⟨bindings, body, closing, f₂, rfl, hbindings, hread⟩

/-- A form behind its keyword. -/
theorem readSpecial_eq_ok {opening : Span} {k : Keyword} {e : Expr}
    (h : readSpecial inner scope opening k f = .ok (e, f')) :
    ∃ kinds, Takes f (kinds ++ [.rightParen]) f' ∧ e.kinds = inParens (.keyword k :: kinds) ∧
      (scope.LeavesRoom (level + 1) → e.Scoped .anywhere scope.frames) := by
  cases k with
  | if_ =>
    obtain ⟨⟨operands, closing⟩, f₁, hoperands, hrest⟩ := bind_eq_ok h
    obtain ⟨htakes, hscoped⟩ := readOperands_eq_ok hinner hoperands
    -- three operands, and neither less nor more
    rcases operands with _ | ⟨c, _ | ⟨t, _ | ⟨e', _ | ⟨extra, more⟩⟩⟩⟩
    · cases hrest
    · cases hrest
    · cases hrest
    · cases hrest
      rw [formKinds, formKinds, formKinds, formKinds, List.append_nil] at htakes
      refine ⟨_, htakes, rfl, fun hroom => ?_⟩
      obtain ⟨hc, ht, he, -⟩ := hscoped hroom.lower
      exact ⟨hc, ht, he⟩
    · cases hrest
  | lambda =>
    obtain ⟨t, f₁, hopen, hrest⟩ := bind_eq_ok h
    obtain ⟨params, f₂, hparams, hrest⟩ := bind_eq_ok hrest
    obtain ⟨⟨body, closing⟩, f₃, hread, hpure⟩ := bind_eq_ok hrest
    cases hpure
    obtain ⟨htakes, hne, hscoped⟩ := readBody_eq_ok hinner hread
    have hnames := (expect_eq_ok hopen (by decide)).inParens (readParameters_eq_ok hparams)
    -- the frame of the parameters is what the level below has one level less for
    refine ⟨nameKinds params ++ formKinds body, ?_, rfl, fun hroom => ⟨hne, hscoped (hroom.push _)⟩⟩
    rw [List.append_assoc]
    exact hnames.trans htakes
  | let_ =>
    obtain ⟨bindings, f₁, hbindings, hrest⟩ := bind_eq_ok h
    obtain ⟨⟨body, closing⟩, f₂, hread, hpure⟩ := bind_eq_ok hrest
    cases hpure
    obtain ⟨htakes, hinits⟩ := readBindings_eq_ok hinner hbindings
    obtain ⟨htakes', hne, hscoped⟩ := readBody_eq_ok hinner hread
    refine ⟨inParens (bindingKinds bindings) ++ formKinds body, ?_, rfl, fun hroom => ?_⟩
    · rw [List.append_assoc]
      exact htakes.trans htakes'
    -- the initialisers stand outside of the frame that they fill, and the body inside
    · exact ⟨hinits hroom.lower, hne, hscoped (hroom.push _)⟩
  | letrec =>
    obtain ⟨bindings, body, closing, f₁, rfl, hbindings, hread⟩ := readLetrec_eq_ok hinner h
    obtain ⟨htakes, hinits⟩ := readBindings_eq_ok hinner hbindings
    obtain ⟨htakes', hne, hscoped⟩ := readBody_eq_ok hinner hread
    refine ⟨inParens (bindingKinds bindings) ++ formKinds body, ?_, rfl, fun hroom => ?_⟩
    · rw [List.append_assoc]
      exact htakes.trans htakes'
    · exact ⟨hinits (hroom.push _), hne, hscoped (hroom.push _)⟩
  | begin_ =>
    obtain ⟨⟨forms, closing⟩, f₁, hoperands, hrest⟩ := bind_eq_ok h
    obtain ⟨htakes, hscoped⟩ := readOperands_eq_ok hinner hoperands
    simp only at hrest
    split at hrest
    next => cases hrest
    next hne =>
      cases hrest
      refine ⟨formKinds forms, htakes, rfl, fun hroom => ⟨fun hnil => ?_, hscoped hroom.lower⟩⟩
      exact hne (List.isEmpty_iff.mpr hnil)
  | car | cdr | consp => exact readUnary_eq_ok hinner h
  | cons => exact readBinary_eq_ok hinner h
  | quote =>
    obtain ⟨blame, f₁, hpos, hrest⟩ := bind_eq_ok h
    cases position_eq_ok hpos
    obtain ⟨d, f₂, hdatum, hrest⟩ := bind_eq_ok hrest
    obtain ⟨t, f₃, hclose, hpure⟩ := bind_eq_ok hrest
    cases hpure
    exact ⟨d.kinds, (hinner.datum hdatum).trans (expect_eq_ok hclose (by decide)), rfl, fun _ => trivial⟩
  | null => exact readCall_eq_ok hinner (.null opening) (fun _ => trivial) h
  | define | defineMacro => cases h

/-- A form behind its opening parenthesis. -/
theorem readCompound_eq_ok {opening : Span} {e : Expr}
    (h : readCompound inner scope opening f = .ok (e, f')) :
    ∃ kinds, Takes f (kinds ++ [.rightParen]) f' ∧ e.kinds = inParens kinds ∧
      (scope.LeavesRoom (level + 1) → e.Scoped .anywhere scope.frames) := by
  obtain ⟨t, f₁, hpeek, hrest⟩ := bind_eq_ok h
  obtain ⟨rfl, f₂, hnext⟩ := peek_eq_ok hpeek
  -- a first token that decides what follows
  have hfirst : ∀ {kind : TokenKind} {r : Read Expr}, t.kind = kind → kind ≠ .eof →
      (do let _ ← next; r : Read Expr) f₁ = .ok (e, f') →
      (∀ {f}, r f = .ok (e, f') → ∃ kinds, Takes f (kinds ++ [.rightParen]) f' ∧
        e.kinds = inParens (kind :: kinds) ∧
          (scope.LeavesRoom (level + 1) → e.Scoped .anywhere scope.frames)) →
      ∃ kinds, Takes f₁ (kinds ++ [.rightParen]) f' ∧ e.kinds = inParens kinds ∧
        (scope.LeavesRoom (level + 1) → e.Scoped .anywhere scope.frames) := by
    intro kind r hkind hne hread hr
    rw [bind_of_ok hnext] at hread
    obtain ⟨kinds, htakes, hkinds, hscoped⟩ := hr hread
    exact ⟨kind :: kinds, (takes_of_next hnext hkind hne).trans htakes, hkinds, hscoped⟩
  -- any other token is the first one of the function that is called
  have hcall : (do readCall inner scope opening (← inner.form t.span.start scope) : Read Expr) f₁ =
      .ok (e, f') → ∃ kinds, Takes f₁ (kinds ++ [.rightParen]) f' ∧ e.kinds = inParens kinds ∧
        (scope.LeavesRoom (level + 1) → e.Scoped .anywhere scope.frames) := by
    intro hread
    obtain ⟨function, f₃, hform, hread⟩ := bind_eq_ok hread
    obtain ⟨htakes, hfunction⟩ := hinner.form hform
    obtain ⟨kinds, htakes', hkinds, hscoped⟩ := readCall_eq_ok hinner function (hfunction ·.lower) hread
    refine ⟨function.kinds ++ kinds, ?_, hkinds, hscoped⟩
    rw [List.append_assoc]
    exact htakes.trans htakes'
  cases hkind : t.kind with
  | keyword k =>
    simp only [hkind] at hrest
    exact hfirst hkind nofun hrest (readSpecial_eq_ok hinner)
  | operator o =>
    simp only [hkind] at hrest
    exact hfirst hkind nofun hrest (readBinary_eq_ok hinner)
  | rightParen =>
    simp only [hkind] at hrest
    cases hrest
  | identifier name =>
    -- `and` and `or` are names, and are primitives only where nothing binds them
    cases hop : BinaryOp.ofName? name with
    | none =>
      simp only [hkind, hop] at hrest
      exact hcall hrest
    | some op =>
      cases hfree : scope.resolve name with
      | none =>
        simp only [hkind, hop, hfree] at hrest
        have htoken := BinaryOp.token_of_ofName? hop
        exact hfirst (hkind.trans htoken.symm) (by rw [htoken]; nofun) hrest
          (readBinary_eq_ok hinner)
      | some address =>
        simp only [hkind, hop, hfree] at hrest
        exact hcall hrest
  | _ =>
    simp only [hkind] at hrest
    exact hcall hrest

theorem readForm_eq_ok {e : Expr} (h : readForm inner scope f = .ok (e, f')) :
    Takes f e.kinds f' ∧ (scope.LeavesRoom (level + 1) → e.Scoped .anywhere scope.frames) := by
  obtain ⟨t, f₁, hnext, hrest⟩ := bind_eq_ok h
  cases hkind : t.kind with
  | number n | boolean b | string text =>
    simp only [hkind] at hrest
    cases hrest
    exact ⟨takes_of_next hnext hkind nofun, fun _ => trivial⟩
  | identifier name =>
    cases hres : scope.resolve name with
    | none =>
      simp only [hkind, hres] at hrest
      cases hrest
    | some address =>
      simp only [hkind, hres] at hrest
      cases hrest
      refine ⟨takes_of_next hnext hkind nofun, fun hroom => ⟨hres, ?_, trivial⟩⟩
      -- the global frame is the one more for which the address has to have room
      rw [Scope.frames, List.length_append, List.length_singleton]
      exact Nat.le_trans (Nat.add_le_add_left (Nat.le_add_left 1 level) _) hroom
  | keyword k =>
    cases k with
    | null =>
      simp only [hkind] at hrest
      cases hrest
      exact ⟨takes_of_next hnext hkind nofun, fun _ => trivial⟩
    | _ =>
      simp only [hkind] at hrest
      cases hrest
  | quote =>
    simp only [hkind] at hrest
    obtain ⟨blame, f₂, hpos, hrest⟩ := bind_eq_ok hrest
    cases position_eq_ok hpos
    obtain ⟨d, f₃, hdatum, hrest⟩ := bind_eq_ok hrest
    obtain ⟨stop, f₄, hpos, hpure⟩ := bind_eq_ok hrest
    cases position_eq_ok hpos
    cases hpure
    exact ⟨(takes_of_next hnext hkind nofun).trans (hinner.datum hdatum), fun _ => trivial⟩
  | backquote =>
    simp only [hkind] at hrest
    obtain ⟨blame, f₂, hpos, hrest⟩ := bind_eq_ok hrest
    cases position_eq_ok hpos
    obtain ⟨template, f₃, htemplate, hrest⟩ := bind_eq_ok hrest
    obtain ⟨stop, f₄, hpos, hpure⟩ := bind_eq_ok hrest
    cases position_eq_ok hpos
    cases hpure
    obtain ⟨htakes, hscoped⟩ := hinner.template htemplate
    exact ⟨(takes_of_next hnext hkind nofun).trans htakes, fun hroom => hscoped hroom.lower⟩
  | leftParen =>
    simp only [hkind] at hrest
    obtain ⟨kinds, htakes, hkinds, hscoped⟩ := readCompound_eq_ok hinner hrest
    rw [hkinds]
    exact ⟨(takes_of_next hnext hkind nofun).inParens htakes, hscoped⟩
  | _ =>
    simp only [hkind] at hrest
    cases hrest

end

end

theorem readers_sound (level : Nat) : (readers level).Sound level := by
  induction level with
  | zero => exact ⟨fun h => (nomatch h), fun h => (nomatch h), fun h => (nomatch h)⟩
  | succ level ih =>
    refine ⟨fun h => readForm_eq_ok ih h, fun h => readDatum_eq_ok ih h, fun h => ?_⟩
    obtain ⟨htakes, hscoped⟩ := readTemplate_eq_ok ih h
    exact ⟨htakes, fun hroom => hscoped hroom.lower⟩

/-! ## Programs -/

/-- A try for one more top-level form, which is told the names that are defined before it. -/
def tryTopForm (inner : Readers) (scope : Scope) : Read (Option (TopForm × Scope)) := do
  let t ← peek
  match t.kind with
  | .eof => return none
  | .rightParen => fail t.span.start .trailingClose
  | _ =>
    let form ← readTopForm inner scope
    return some (form, form.defined?.elim scope scope.define)

theorem readProgram_def (inner : Readers) (scope : Scope) :
    readProgram inner scope = (do
      let forms ← collect (tryTopForm inner) scope
      if forms.isEmpty then unexpected (← peek) .expression
      return forms) := rfl

/-- A program is refused for the reason that its first form is refused for. -/
theorem Program.ofRun_of_error {globals : List String} {r : TokenRun} {e : Fault}
    (h : tryTopForm (readers (maxNesting - 1)) { globals } (.ofRun r) = .error e) :
    Program.ofRun globals r = .error e := by
  have hfor : collectFor (tryTopForm (readers (maxNesting - 1))) (r.tokens.length + 1) { globals }
      (.ofRun r) = .error e := bind_of_error h
  have hcollect : collect (tryTopForm (readers (maxNesting - 1))) { globals } (.ofRun r) = .error e := hfor
  rw [Program.ofRun, StateT.run', readProgram_def, bind_of_error hcollect]
  rfl

/-- The scope behind a top-level form. -/
theorem TopForm.elim_define (form : TopForm) (globals : List String) :
    form.defined?.elim ({ globals } : Scope) (Scope.define { globals }) =
      { globals := globals ++ form.defined?.toList } := by
  cases form.defined? with
  | none =>
    rw [Option.toList_none, List.append_nil]
    rfl
  | some name => rfl

/-- A reader that looks for a definition is one of its two parts. -/
theorem eq_ok_of_define {tokens : List Token} {form : TopForm} {x : Span → Read TopForm}
    {y : Read TopForm} {f f' : Feed}
    (h : (match tokens with
      | ⟨.leftParen, opening⟩ :: ⟨.keyword .define, _⟩ :: _ => x opening
      | _ => y) f = .ok (form, f')) :
    (∃ opening span rest, tokens = ⟨.leftParen, opening⟩ :: ⟨.keyword .define, span⟩ :: rest ∧
      x opening f = .ok (form, f')) ∨ y f = .ok (form, f') := by
  split at h
  · exact .inl ⟨_, _, _, rfl, h⟩
  · exact .inr h

section
variable {inner : Readers} {level : Nat} {globals : List String} {f f' : Feed}
  (hinner : inner.Sound level) (hle : level + 1 ≤ maxNesting)
include hinner hle

/-- A definition behind its keyword. -/
theorem readDefinition_eq_ok {opening : Span} {form : TopForm}
    (h : readDefinition inner { globals } opening f = .ok (form, f')) :
    ∃ kinds, Takes f (kinds ++ [.rightParen]) f' ∧ form.kinds = inParens (.keyword .define :: kinds) ∧
      form.Scoped .anywhere globals := by
  obtain ⟨t, f₁, hnext, hrest⟩ := bind_eq_ok h
  cases hkind : t.kind with
  | leftParen =>
    simp only [hkind] at hrest
    obtain ⟨⟨name, span⟩, f₂, hname, hrest⟩ := bind_eq_ok hrest
    obtain ⟨params, f₃, hparams, hrest⟩ := bind_eq_ok hrest
    obtain ⟨⟨body, closing⟩, f₄, hread, hpure⟩ := bind_eq_ok hrest
    cases hpure
    -- a function is in the scope of its own name
    have hroom : (({ globals } : Scope).define name).LeavesRoom (level + 1) := Scope.leavesRoom_of_le hle
    obtain ⟨htakes, hne, hscoped⟩ := readBody_eq_ok hinner hread
    have hlist := (identifier_eq_ok hname).trans (readParameters_eq_ok hparams)
    have hnames : Takes f (nameKinds (name :: params)) f₃ :=
      (takes_of_next hnext hkind nofun).inParens hlist
    refine ⟨nameKinds (name :: params) ++ formKinds body, ?_, rfl, hne, hscoped (hroom.push params)⟩
    rw [List.append_assoc]
    exact hnames.trans htakes
  | identifier name =>
    simp only [hkind] at hrest
    obtain ⟨blame, f₂, hpos, hrest⟩ := bind_eq_ok hrest
    cases position_eq_ok hpos
    obtain ⟨e, f₃, hform, hrest⟩ := bind_eq_ok hrest
    obtain ⟨closing, f₄, hclose, hpure⟩ := bind_eq_ok hrest
    cases hpure
    obtain ⟨htakes, hscoped⟩ := hinner.form hform
    refine ⟨.identifier name :: e.kinds, ?_, rfl, hscoped (Scope.leavesRoom_of_le (Nat.le_of_succ_le hle))⟩
    exact ((takes_of_next hnext hkind nofun).trans htakes).trans (expect_eq_ok hclose nofun)
  | _ =>
    simp only [hkind] at hrest
    cases hrest

theorem readTopForm_eq_ok {form : TopForm} (h : readTopForm inner { globals } f = .ok (form, f')) :
    Takes f form.kinds f' ∧ form.Scoped .anywhere globals := by
  obtain ⟨f₀, f₁, hget, hrest⟩ := bind_eq_ok h
  cases hget
  -- a definition is known by its first two tokens, before either of them is taken
  obtain ⟨opening, span, rest, htokens, hdefine⟩ | hvalue := eq_ok_of_define hrest
  · rw [bind_of_ok (next_cons htokens), bind_of_ok (next_cons rfl)] at hdefine
    obtain ⟨kinds, htakes, hkinds, hscoped⟩ := readDefinition_eq_ok hinner hle hdefine
    have hstart : Takes f [.leftParen, .keyword .define]
        { f with tokens := rest, position := span.stop } := by
      exact .of_used [⟨.leftParen, opening⟩, ⟨.keyword .define, span⟩] htokens rfl rfl rfl
    rw [hkinds]
    exact ⟨hstart.trans htakes, hscoped⟩
  · obtain ⟨t, f₁, hpeek, hread⟩ := bind_eq_ok hvalue
    obtain ⟨e, f₂, hform, hstop⟩ := bind_eq_ok hread
    obtain ⟨stop, f₃, hpos, hpure⟩ := bind_eq_ok hstop
    cases position_eq_ok hpos
    cases hpure
    obtain ⟨rfl, -⟩ := peek_eq_ok hpeek
    obtain ⟨htakes, hscoped⟩ := readForm_eq_ok hinner hform
    exact ⟨htakes, hscoped (Scope.leavesRoom_of_le hle)⟩

/-- A try sees the end of the source, or reads a form. -/
theorem tryTopForm_eq_ok {scope : Scope} {r : Option (TopForm × Scope)} (hscope : scope.locals = [])
    (h : tryTopForm inner scope f = .ok (r, f')) :
    r = none ∨ ∃ form, r = some (form, { globals := scope.globals ++ form.defined?.toList }) ∧
      Takes f form.kinds f' ∧ form.Scoped .anywhere scope.globals := by
  obtain ⟨t, f₁, hpeek, hrest⟩ := bind_eq_ok h
  obtain ⟨rfl, -⟩ := peek_eq_ok hpeek
  cases hkind : t.kind with
  | eof =>
    simp only [hkind] at hrest
    cases hrest
    exact .inl rfl
  | rightParen =>
    simp only [hkind] at hrest
    cases hrest
  | _ =>
    simp only [hkind] at hrest
    obtain ⟨form, f₂, hform, hpure⟩ := bind_eq_ok hrest
    cases hpure
    obtain ⟨locals, globals⟩ := scope
    cases hscope
    refine .inr ⟨form, ?_, readTopForm_eq_ok hinner hle hform⟩
    rw [TopForm.elim_define]

/-- A program is read form by form, to where a try gives none. -/
theorem collects_of_readProgram {p : Program} (h : readProgram inner { globals } f = .ok (p, f')) :
    ∃ f₁, Collects (tryTopForm inner) { globals } f p f₁ := by
  rw [readProgram_def] at h
  obtain ⟨forms, f₁, hcollect, hrest⟩ := bind_eq_ok h
  -- a program without forms is refused after it was read
  have hforms : p = forms := by
    by_cases hempty : forms.isEmpty
    · rw [if_pos hempty] at hrest
      obtain ⟨_, _, -, hfail⟩ := bind_eq_ok hrest
      cases hfail
    · rw [if_neg hempty] at hrest
      cases hrest
      rfl
  subst hforms
  refine ⟨f₁, collects_of_collect (fun scope => scope.locals = []) ?_ rfl hcollect⟩
  intro scope f form scope' f' hscope hstep
  obtain hnone | ⟨form, hsome, htakes, -⟩ := tryTopForm_eq_ok hinner hle hscope hstep
  · cases hnone
  · cases hsome
    exact ⟨rfl, htakes.length_lt (TopForm.kinds_ne_nil _)⟩

/-- Each form of a program is read in the scope of the names that are defined before it. -/
theorem readProgram_eq_ok {p : Program} (h : readProgram inner { globals } f = .ok (p, f')) :
    p.Scoped .anywhere globals := by
  obtain ⟨f₁, hcollects⟩ := collects_of_readProgram hinner hle h
  show p.Scoped .anywhere ({ globals } : Scope).globals
  have hscope : ({ globals } : Scope).locals = [] := rfl
  clear h
  generalize ({ globals } : Scope) = scope at hcollects hscope ⊢
  -- each form that is collected hands on the scope in which the next one is read
  induction hcollects with
  | done => trivial
  | item hstep _ ih =>
    obtain hnone | ⟨form, hsome, -, hscoped⟩ := tryTopForm_eq_ok hinner hle hscope hstep
    · cases hnone
    · cases hsome
      exact ⟨hscoped, ih rfl⟩

end

/-- **Every program that is read is scoped.** -/
theorem Program.scoped_of_ofRun {globals : List String} {r : TokenRun} {p : Program}
    (h : Program.ofRun globals r = .ok p) : p.Scoped .anywhere globals := by
  unfold Program.ofRun StateT.run' at h
  cases hread : readProgram (readers (maxNesting - 1)) { globals } (.ofRun r) with
  | error e =>
    rw [hread] at h
    cases h
  | ok result =>
    rw [hread] at h
    cases h
    exact readProgram_eq_ok (readers_sound (maxNesting - 1)) (by decide) hread

end LispMachine
