import LispMachine.Proofs.Written

/-!
# What quoting gives

Every form can be quoted, and then its tokens are read as a datum. Which datum that is can be said by
recursion on the form (`Expr.quoted`), as no token of a form is lost in its tree. There is only one datum
that is written with given tokens (`Datum.eq_of_kinds`), so that a template and what quoting it would
give can be spoken of together.

A datum is filled by putting values, from left to right, in the place of what is unquoted in it
(`Datum.fill`).
-/

namespace LispMachine

/-! ## Forms as data -/

/-- The word that a primitive is written with. -/
def BinaryOp.word : BinaryOp → Word
  | .cons => .keyword .cons
  | .operator o => .operator o
  | .and => .identifier "and"
  | .or => .identifier "or"

/-- A list of names, as a datum. -/
def quotedNames (names : List String) : Datum := .list (names.map fun name => .word (.identifier name))

mutual
/-- The datum that an expression is when it is quoted. -/
def Expr.quoted : Expr → Datum
  | .literal _ l => .literal l
  | .null _ => .word (.keyword .null)
  | .var _ name _ => .word (.identifier name)
  | .quote _ d => .marked .quote d
  | .quoteForm _ d => .list [.word (.keyword .quote), d]
  | .quasi _ t => .marked .quasiquote t.quoted
  | .unary _ op operand => .list [.word (.keyword op.keyword), operand.quoted]
  | .binary _ op left right => .list [.word op.word, left.quoted, right.quoted]
  | .ifElse _ condition consequent alternative =>
    .list [.word (.keyword .if_), condition.quoted, consequent.quoted, alternative.quoted]
  | .lambda _ params body => .list (.word (.keyword .lambda) :: quotedNames params :: quotedForms body)
  | .letIn _ bindings body =>
    .list (.word (.keyword .let_) :: .list (quotedBindings bindings) :: quotedForms body)
  | .letrec _ bindings body =>
    .list (.word (.keyword .letrec) :: .list (quotedBindings bindings) :: quotedForms body)
  | .sequence _ forms => .list (.word (.keyword .begin_) :: quotedForms forms)
  | .app _ function args => .list (function.quoted :: quotedForms args)
/-- The data that expressions are. -/
def quotedForms : List Expr → List Datum
  | [] => []
  | e :: es => e.quoted :: quotedForms es
/-- The data that bindings are. -/
def quotedBindings : List (String × Expr) → List Datum
  | [] => []
  | (name, e) :: rest => .list [.word (.identifier name), e.quoted] :: quotedBindings rest
/-- The datum that a template is when it is quoted and not quasiquoted. Its holes are data behind a
comma. -/
def Template.quoted : Template → Datum
  | .hole e => .marked .unquote e.quoted
  | .datum d => d
  | .list _ items => .list (quotedItems items)
/-- The data that the items of a template are. -/
def quotedItems : List Template → List Datum
  | [] => []
  | t :: ts => t.quoted :: quotedItems ts
end

theorem BinaryOp.kind_word (op : BinaryOp) : op.word.kind = op.token := by
  cases op <;> rfl

theorem kinds_quotedNames (names : List String) : (quotedNames names).kinds = nameKinds names := by
  rw [quotedNames, Datum.kinds, dataKinds_eq_flatMap, nameKinds, List.flatMap_map, List.map_eq_flatMap]
  rfl

mutual
/-- Quoting an expression changes none of its tokens. -/
theorem Expr.kinds_quoted : ∀ e : Expr, e.quoted.kinds = e.kinds
  | .literal .. | .null _ | .var .. | .quote .. => rfl
  | .quoteForm _ d => by simp [Expr.quoted, Datum.kinds, dataKinds, Expr.kinds, Word.kind]
  | .quasi _ t => by rw [Expr.quoted, Datum.kinds, Template.kinds_quoted t]; rfl
  | .unary _ op e => by
    simp [Expr.quoted, Datum.kinds, dataKinds, Expr.kinds, Word.kind, Expr.kinds_quoted e]
  | .binary _ op l r => by
    simp [Expr.quoted, Datum.kinds, dataKinds, Expr.kinds, BinaryOp.kind_word, Expr.kinds_quoted l,
      Expr.kinds_quoted r]
  | .ifElse _ c t e => by
    simp [Expr.quoted, Datum.kinds, dataKinds, Expr.kinds, Word.kind, Expr.kinds_quoted c,
      Expr.kinds_quoted t, Expr.kinds_quoted e]
  | .lambda _ params body => by
    simp [Expr.quoted, Datum.kinds, dataKinds, Expr.kinds, Word.kind, kinds_quotedNames,
      kinds_quotedForms body]
  | .letIn _ bindings body | .letrec _ bindings body => by
    simp [Expr.quoted, Datum.kinds, dataKinds, Expr.kinds, Word.kind, kinds_quotedBindings bindings,
      kinds_quotedForms body]
  | .sequence _ forms => by
    simp [Expr.quoted, Datum.kinds, dataKinds, Expr.kinds, Word.kind, kinds_quotedForms forms]
  | .app _ f args => by
    rw [Expr.quoted, Datum.kinds, dataKinds, Expr.kinds, Expr.kinds_quoted f, kinds_quotedForms args]
theorem kinds_quotedForms : ∀ es : List Expr, dataKinds (quotedForms es) = formKinds es
  | [] => rfl
  | e :: es => by rw [quotedForms, dataKinds, formKinds, Expr.kinds_quoted e, kinds_quotedForms es]
theorem kinds_quotedBindings : ∀ bindings : List (String × Expr),
    dataKinds (quotedBindings bindings) = bindingKinds bindings
  | [] => rfl
  | (name, e) :: rest => by
    simp [quotedBindings, dataKinds, Datum.kinds, bindingKinds, Word.kind, Expr.kinds_quoted e,
      kinds_quotedBindings rest]
theorem Template.kinds_quoted : ∀ t : Template, t.quoted.kinds = t.kinds
  | .hole e => by rw [Template.quoted, Datum.kinds, Expr.kinds_quoted e]; rfl
  | .datum _ => rfl
  | .list _ items => by rw [Template.quoted, Datum.kinds, Template.kinds, kinds_quotedItems items]
theorem kinds_quotedItems : ∀ ts : List Template, dataKinds (quotedItems ts) = templateKinds ts
  | [] => rfl
  | t :: ts => by
    rw [quotedItems, dataKinds, templateKinds, Template.kinds_quoted t, kinds_quotedItems ts]
end

/-! ## One datum for given tokens -/

/-- Two data that are written with the same tokens are the same: a reader that goes deep enough gives both. -/
theorem Datum.eq_of_kinds {d d' : Datum} (h : d.kinds = d'.kinds) : d = d' := by
  let f : Feed := { tokens := d.kinds.map fun k => ⟨k, .point 0⟩, ending := .eof 0 }
  have hused : f.tokens.map Token.kind = d.kinds := by
    rw [List.map_map]
    exact List.map_id _
  have hcomplete := readers_complete (max d.nesting d'.nesting)
  obtain ⟨a, f₁, hread, -, -, rfl⟩ :=
    hcomplete.datum 0 (Nat.le_max_left _ _) f f.tokens [] (List.append_nil _).symm hused
  obtain ⟨a', f₂, hread', -, -, rfl⟩ :=
    hcomplete.datum 0 (Nat.le_max_right _ _) f f.tokens [] (List.append_nil _).symm (hused.trans h)
  rw [hread] at hread'
  cases hread'
  rfl

/-- What is taken as a template and what is taken as a datum, from the same place, end in the same place,
and the datum is the template as it is quoted. -/
theorem Template.eq_quoted {t : Template} {d : Datum} {f f₁ f₂ : Feed} (ht : Takes f t.kinds f₁)
    (hd : Takes f d.kinds f₂) : d = t.quoted ∧ f₂ = f₁ := by
  -- both are skipped as one datum, and skipping ends in one place
  have hskip := (ht.skipDatum_eq t.skips).symm.trans (hd.skipDatum_eq d.skips)
  cases hskip
  obtain ⟨used, hused, hkinds⟩ := ht.tokens
  obtain ⟨used', hused', hkinds'⟩ := hd.tokens
  obtain rfl : used = used' := List.append_cancel_right (hused.symm.trans hused')
  refine ⟨Datum.eq_of_kinds ?_, rfl⟩
  rw [Template.kinds_quoted, ← hkinds, hkinds']

/-! ## Filling -/

mutual
/-- The value of a datum with values in the place of what is unquoted in it, from left to right, and the
values that are left over. -/
def Datum.fill : Datum → List Value → Value × List Value
  | .literal l, vs => (l.value, vs)
  | .word w, vs => (.symbol w.name, vs)
  | .list items, vs =>
    let (filled, rest) := fillAll items vs
    (.list filled, rest)
  | .marked .unquote _, v :: vs => (v, vs)
  | .marked mark d, vs =>
    let (v, rest) := d.fill vs
    (.list [.symbol mark.name, v], rest)
/-- The values of data that are filled one after the other. -/
def fillAll : List Datum → List Value → List Value × List Value
  | [], vs => ([], vs)
  | d :: ds, vs =>
    let (v, vs) := d.fill vs
    let (filled, rest) := fillAll ds vs
    (v :: filled, rest)
end

mutual
/-- A datum without a comma is its value, whatever it is filled with. -/
theorem Datum.fill_of_not_mem : ∀ (d : Datum), .comma ∉ d.kinds → ∀ vs, d.fill vs = (d.value, vs)
  | .literal _, _, vs => by rw [Datum.fill, Datum.value]
  | .word _, _, vs => by rw [Datum.fill, Datum.value]
  | .list items, h, vs => by
    have hitems : .comma ∉ dataKinds items := by
      simp [Datum.kinds, inParens] at h
      exact h
    rw [Datum.fill, Datum.value, fillAll_of_not_mem items hitems vs]
  | .marked mark d, h, vs => by
    have hd : .comma ∉ d.kinds := fun hmem => h (List.mem_cons_of_mem _ hmem)
    -- behind any other mark the filling goes on, and finds no comma there either
    cases mark with
    | unquote => exact absurd List.mem_cons_self h
    | quote => rw [Datum.fill, Datum.value, Datum.fill_of_not_mem d hd vs]; nofun
    | quasiquote => rw [Datum.fill, Datum.value, Datum.fill_of_not_mem d hd vs]; nofun
theorem fillAll_of_not_mem : ∀ (ds : List Datum), .comma ∉ dataKinds ds →
    ∀ vs, fillAll ds vs = (Datum.values ds, vs)
  | [], _, vs => by rw [fillAll, Datum.values]
  | d :: ds, h, vs => by
    rw [dataKinds, List.mem_append, not_or] at h
    rw [fillAll, Datum.values, Datum.fill_of_not_mem d h.1 vs]
    simp only
    rw [fillAll_of_not_mem ds h.2 vs]
end

end LispMachine
