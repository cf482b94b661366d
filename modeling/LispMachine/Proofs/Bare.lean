import LispMachine.Proofs.Grammar
import LispMachine.Proofs.Marks

/-!
# Trees without spans and addresses

The tree that the reader gives knows more than the program that was written: spans, and the address of
each variable. `Expr.bare` forgets both. Nothing of the tokens is lost (`Expr.kinds_bare`), and nothing
of the code but the origins, as long as the variables are resolved in the scope of the tree
(`Expr.code_bare`).

Every term is the bare one of some tree (`Term.dress`), so that what is known about the tokens of trees
holds for terms as well.
-/

namespace LispMachine

mutual
/-- The expression without spans and addresses. -/
def Expr.bare : Expr → Term
  | .literal _ l => .literal l
  | .null _ => .null
  | .var _ name _ => .var name
  | .quote _ datum => .quote datum
  | .quoteForm _ datum => .quoteForm datum
  | .quasi _ template => .quasi template.bare
  | .unary _ op operand => .unary op operand.bare
  | .binary _ op left right => .binary op left.bare right.bare
  | .ifElse _ condition consequent alternative =>
    .ifElse condition.bare consequent.bare alternative.bare
  | .lambda _ params body => .lambda params (bareAll body)
  | .letIn _ bindings body => .letIn (bareInits bindings) (bareAll body)
  | .letrec _ bindings body => .letrec (bareInits bindings) (bareAll body)
  | .sequence _ forms => .sequence (bareAll forms)
  | .app _ function args => .app function.bare (bareAll args)
/-- The expressions without spans and addresses. -/
def bareAll : List Expr → List Term
  | [] => []
  | e :: es => e.bare :: bareAll es
/-- The bindings without spans and addresses. -/
def bareInits : List (String × Expr) → List (String × Term)
  | [] => []
  | (name, e) :: rest => (name, e.bare) :: bareInits rest
/-- The template without spans and addresses. -/
def Template.bare : Template → TermTemplate
  | .hole e => .hole e.bare
  | .list _ items => .list (bareItems items)
  | .datum d => .datum d
/-- The templates without spans and addresses. -/
def bareItems : List Template → List TermTemplate
  | [] => []
  | t :: ts => t.bare :: bareItems ts
end

/-- The top-level form without spans and addresses. -/
def TopForm.bare : TopForm → TopTerm
  | .value _ e => .value e.bare
  | .defineVariable _ name e => .defineVariable name e.bare
  | .defineFunction _ name params body => .defineFunction name params (bareAll body)

/-- The program without spans and addresses. -/
def Program.bare (p : Program) : Listing := p.map TopForm.bare

/-- The binding without spans and addresses. -/
def bareBinding (b : String × Expr) : String × Term := (b.1, b.2.bare)

@[simp] theorem bareAll_eq_map (es : List Expr) : bareAll es = es.map Expr.bare := by
  induction es with
  | nil => rfl
  | cons e es ih => rw [bareAll, ih, List.map_cons]

@[simp] theorem bareInits_eq_map (bindings : List (String × Expr)) :
    bareInits bindings = bindings.map bareBinding := by
  induction bindings with
  | nil => rfl
  | cons b bs ih =>
    rw [bareInits, ih, List.map_cons]
    rfl

@[simp] theorem bareItems_eq_map (ts : List Template) : bareItems ts = ts.map Template.bare := by
  induction ts with
  | nil => rfl
  | cons t ts ih => rw [bareItems, ih, List.map_cons]

@[simp] theorem map_fst_bareInits (bindings : List (String × Expr)) :
    (bareInits bindings).map (·.1) = bindings.map (·.1) := by
  rw [bareInits_eq_map, List.map_map]
  rfl

@[simp] theorem TopForm.defined?_bare (form : TopForm) : form.bare.defined? = form.defined? := by
  cases form <;> rfl

theorem Program.definedNames_bare (p : Program) : p.bare.definedNames = p.definedNames := by
  rw [Program.bare, Listing.definedNames, Program.definedNames, List.filterMap_map]
  congr 1
  funext form
  exact form.defined?_bare

/-! ## Tokens -/

mutual
theorem Expr.kinds_bare : ∀ e : Expr, e.bare.kinds = e.kinds
  | .literal _ _ | .null _ | .var _ _ _ | .quote _ _ | .quoteForm _ _ => rfl
  | .quasi _ t => congrArg (_ :: ·) t.kinds_bare
  | .unary _ _ e => by rw [Expr.bare, Term.kinds, Expr.kinds, e.kinds_bare]
  | .binary _ _ l r => by rw [Expr.bare, Term.kinds, Expr.kinds, l.kinds_bare, r.kinds_bare]
  | .ifElse _ c t e => by
    rw [Expr.bare, Term.kinds, Expr.kinds, c.kinds_bare, t.kinds_bare, e.kinds_bare]
  | .lambda _ _ body => by rw [Expr.bare, Term.kinds, Expr.kinds, formKinds_bare body]
  | .letIn _ bindings body => by
    rw [Expr.bare, Term.kinds, Expr.kinds, bindingKinds_bare bindings, formKinds_bare body]
  | .letrec _ bindings body => by
    rw [Expr.bare, Term.kinds, Expr.kinds, bindingKinds_bare bindings, formKinds_bare body]
  | .sequence _ forms => by rw [Expr.bare, Term.kinds, Expr.kinds, formKinds_bare forms]
  | .app _ f args => by rw [Expr.bare, Term.kinds, Expr.kinds, f.kinds_bare, formKinds_bare args]
theorem formKinds_bare : ∀ es : List Expr, termKinds (bareAll es) = formKinds es
  | [] => rfl
  | e :: es => by rw [bareAll, termKinds, formKinds, e.kinds_bare, formKinds_bare es]
theorem bindingKinds_bare :
    ∀ bindings : List (String × Expr), initKinds (bareInits bindings) = bindingKinds bindings
  | [] => rfl
  | (_, e) :: rest => by
    rw [bareInits, initKinds, bindingKinds, e.kinds_bare, bindingKinds_bare rest]
theorem Template.kinds_bare : ∀ t : Template, t.bare.kinds = t.kinds
  | .hole e => congrArg (_ :: ·) e.kinds_bare
  | .datum _ => rfl
  | .list _ items => congrArg inParens (templateKinds_bare items)
theorem templateKinds_bare : ∀ ts : List Template, itemKinds (bareItems ts) = templateKinds ts
  | [] => rfl
  | t :: ts => by rw [bareItems, itemKinds, templateKinds, t.kinds_bare, templateKinds_bare ts]
end

theorem TopForm.kinds_bare (form : TopForm) : form.bare.kinds = form.kinds := by
  cases form with
  | value span e => exact e.kinds_bare
  | defineVariable parens name e => rw [TopForm.bare, TopTerm.kinds, TopForm.kinds, e.kinds_bare]
  | defineFunction parens name params body =>
    rw [TopForm.bare, TopTerm.kinds, TopForm.kinds, formKinds_bare]

/-! ## Code -/

mutual
/-- Quoted data have no origins. -/
theorem Datum.erase_value : ∀ d : Datum, d.value.erase = d.value
  | .literal (.number _) | .literal (.boolean _) | .literal (.string _) => rfl
  | .word _ => rfl
  | .list items => congrArg Value.list (eraseAll_values items)
  | .marked _ d => by
    rw [Datum.value, Value.erase, Value.eraseAll, Value.eraseAll, Value.eraseAll, d.erase_value]
    rfl
theorem eraseAll_values : ∀ ds : List Datum, Value.eraseAll (Datum.values ds) = Datum.values ds
  | [] => rfl
  | d :: ds => by rw [Datum.values, Value.eraseAll, d.erase_value, eraseAll_values ds]
end

mutual
theorem Template.value?_bare : ∀ t : Template, t.bare.value? = t.value?
  | .hole _ | .datum _ => rfl
  | .list _ items => congrArg (Option.map Value.list) (values?_bare items)
theorem values?_bare : ∀ ts : List Template, TermTemplate.values? (bareItems ts) = Template.values? ts
  | [] => rfl
  | t :: ts => congr (congrArg (fun (v : Option Value) vs =>
      match v, vs with
      | some v, some vs => some (v :: vs)
      | _, _ => none) t.value?_bare) (values?_bare ts)
end

mutual
/-- A template without holes has no origins. -/
theorem Template.erase_value? : ∀ (t : Template) {v : Value}, t.value? = some v → v.erase = v
  | .hole _, _, h => nomatch h
  | .datum d, _, h => by
    cases h
    exact d.erase_value
  | .list _ items, _, h => by
    obtain ⟨vs, hvs, rfl⟩ := Option.map_eq_some_iff.mp h
    exact congrArg Value.list (eraseAll_values? items hvs)
theorem eraseAll_values? :
    ∀ (ts : List Template) {vs : List Value}, Template.values? ts = some vs → Value.eraseAll vs = vs
  | [], _, h => by
    cases h
    rfl
  | t :: ts, _, h => by
    rw [Template.values?] at h
    split at h
    next v vs hv hvs =>
      cases h
      rw [Value.eraseAll, t.erase_value? hv, eraseAll_values? ts hvs]
    next => cases h
end

namespace Code

theorem erase_constant {v : Value} (h : v.erase = v) (span : Span) :
    (constant span v).map Value.erase = Rule.constant v := by
  show [Value.op .ldc none, v.erase] = _
  rw [h]
  rfl

theorem erase_list_eq (span : Span) (items : List Code) :
    (list span items).map Value.erase = Rule.list (items.map (List.map Value.erase)) := by
  rw [list, List.map_cons, List.map_flatMap, Rule.list, ← List.map_reverse, List.flatMap_map]
  simp only [List.map_append]
  rfl

theorem erase_sequence_eq (span : Span) (codes : List Code) :
    (sequence span codes).map Value.erase = Rule.sequence (codes.map (List.map Value.erase)) := by
  induction codes with
  | nil => rfl
  | cons code rest ih =>
    cases rest with
    | nil => rfl
    | cons next rest =>
      show (code ++ instr .pop span :: sequence span (next :: rest)).map _ = _
      rw [List.map_append, List.map_cons, ih]
      rfl

theorem erase_function_eq (parens : Parens) (body : List Code) :
    (function parens body).erase = Rule.function (body.map (List.map Value.erase)) := by
  rw [function, Value.erase_list, List.map_append, erase_sequence_eq]
  rfl

theorem erase_branch_eq (span : Span) (code : Code) :
    (branch span code).erase = Rule.branch (code.map Value.erase) := by
  rw [branch, Value.erase_list, List.map_append]
  rfl

end Code

section
variable {site : Site}

mutual
/-- **The code of a scoped tree is the code of the rules, but for origins.** -/
theorem Expr.code_bare (scope : Scope) : ∀ e : Expr, e.Scoped site scope.frames →
    e.code.map Value.erase = e.bare.code scope
  | .literal span (.number _), _ | .literal span (.boolean _), _ | .literal span (.string _), _ => rfl
  | .null _, _ => rfl
  -- the rules resolve the name themselves, and come to the address that the tree has recorded
  | .var _ name address, h => by
    have hresolve : scope.resolve name = some address := h.1
    rw [Expr.bare, Term.code, hresolve]
    rfl
  | .quote span d, _ | .quoteForm ⟨span, _⟩ d, _ => Code.erase_constant d.erase_value _
  | .quasi span t, h => t.code_bare scope span h
  | .unary _ _ e, h => by
    rw [Expr.bare, Expr.code, Term.code, List.map_append, e.code_bare scope h]
    rfl
  | .binary _ _ l r, h => by
    rw [Expr.bare, Expr.code, Term.code, List.map_append, List.map_append, l.code_bare scope h.1,
      r.code_bare scope h.2]
    rfl
  | .ifElse _ c t e, h => by
    rw [Expr.bare, Expr.code, Term.code, List.map_append, c.code_bare scope h.1, ← t.code_bare scope h.2.1,
      ← e.code_bare scope h.2.2, ← Code.erase_branch_eq, ← Code.erase_branch_eq]
    rfl
  | .lambda _ params body, h => by
    rw [Expr.bare, Expr.code, Term.code, ← codes_bare (scope.push params) body h.2,
      ← Code.erase_function_eq]
    rfl
  | .letIn _ bindings body, h => by
    rw [Expr.bare, Expr.code, Term.code, map_fst_bareInits, ← initCodes_bare scope bindings h.1,
      ← codes_bare (scope.push _) body h.2.2, List.map_append, Code.erase_list_eq,
      ← Code.erase_function_eq]
    rfl
  | .letrec _ bindings body, h => by
    rw [Expr.bare, Expr.code, Term.code, map_fst_bareInits,
      ← initCodes_bare (scope.push _) bindings h.1,
      ← codes_bare (scope.push _) body h.2.2, List.map_append, List.map_cons,
      Code.erase_list_eq, ← Code.erase_function_eq]
    rfl
  | .sequence _ forms, h => by
    rw [Expr.bare, Expr.code, Term.code, Code.erase_sequence_eq, codes_bare scope forms h.2]
  | .app _ f args, h => by
    rw [Expr.bare, Expr.code, Term.code, List.map_append, List.map_append, Code.erase_list_eq,
      codes_bare scope args h.2, f.code_bare scope h.1]
    rfl
theorem codes_bare (scope : Scope) : ∀ es : List Expr, ScopedAll site scope.frames es →
    (codes es).map (List.map Value.erase) = termCodes scope (bareAll es)
  | [], _ => rfl
  | e :: es, h => by
    rw [codes, bareAll, termCodes, List.map_cons, e.code_bare scope h.1, codes_bare scope es h.2]
theorem initCodes_bare (scope : Scope) : ∀ bindings : List (String × Expr),
    ScopedInits site scope.frames bindings →
    (initCodes bindings).map (List.map Value.erase) = termInitCodes scope (bareInits bindings)
  | [], _ => rfl
  | (_, e) :: rest, h => by
    rw [initCodes, bareInits, termInitCodes, List.map_cons, e.code_bare scope h.1, initCodes_bare scope rest h.2]
theorem Template.code_bare (scope : Scope) (span : Span) : ∀ t : Template,
    t.Scoped site scope.frames → (t.code span).map Value.erase = t.bare.code scope
  | .hole e, h => e.code_bare scope h
  | .datum d, _ => Code.erase_constant d.erase_value span
  | .list parens items, h => by
    rw [Template.bare, Template.code, TermTemplate.code, values?_bare]
    cases hvalues : Template.values? items with
    | some vs =>
      have herase : (Value.list vs).erase = .list vs :=
        congrArg Value.list (eraseAll_values? items hvalues)
      exact Code.erase_constant herase span
    | none =>
      simp only
      rw [Code.erase_list_eq, templateCodes_bare scope parens.span items h]
theorem templateCodes_bare (scope : Scope) (span : Span) : ∀ ts : List Template,
    ScopedTemplates site scope.frames ts →
    (templateCodes span ts).map (List.map Value.erase) = termItemCodes scope (bareItems ts)
  | [], _ => rfl
  | t :: ts, h => by
    rw [templateCodes, bareItems, termItemCodes, List.map_cons, t.code_bare scope span h.1,
      templateCodes_bare scope span ts h.2]
end

theorem TopForm.code_bare {globals : List String} {form : TopForm} (h : form.Scoped site globals) :
    form.code.map Value.erase = form.bare.code globals := by
  cases form with
  | value span e => exact e.code_bare { globals } h
  | defineVariable parens name e =>
    rw [TopForm.bare, TopForm.code, TopTerm.code, List.map_append,
      e.code_bare { globals := globals ++ [name] } h]
    rfl
  | defineFunction parens name params body =>
    rw [TopForm.bare, TopForm.code, TopTerm.code,
      ← codes_bare { locals := [params], globals := globals ++ [name] } body h.2,
      ← Code.erase_function_eq]
    rfl

/-- **The code of a scoped program is the code of the rules, but for origins.** -/
theorem Program.code_bare {globals : List String} {p : Program} (h : p.Scoped site globals) :
    p.code.map Value.erase = p.bare.code globals := by
  induction p generalizing globals with
  | nil => rfl
  | cons form rest ih =>
    cases rest with
    | nil => exact TopForm.code_bare h.1
    | cons next rest =>
      -- what a form defines is in scope of the forms behind it, on both sides
      have hdrop : form.drop.map Value.erase = form.bare.drop := by cases form <;> rfl
      show (form.code ++ form.drop ++ Program.code (next :: rest)).map _ =
        form.bare.code globals ++ form.bare.drop ++
          Listing.code (globals ++ form.bare.defined?.toList) (Program.bare (next :: rest))
      rw [List.map_append, List.map_append, TopForm.code_bare h.1, hdrop, form.defined?_bare, ih h.2]

end

/-! ## Every term is one of a tree -/

mutual
/-- A tree of a term, with spans and addresses that mean nothing. -/
def Term.dress : Term → Expr
  | .literal l => .literal (.point 0) l
  | .null => .null (.point 0)
  | .var name => .var (.point 0) name ⟨0, 0⟩
  | .quote datum => .quote (.point 0) datum
  | .quoteForm datum => .quoteForm ⟨.point 0, .point 0⟩ datum
  | .quasi template => .quasi (.point 0) template.dress
  | .unary op operand => .unary ⟨.point 0, .point 0⟩ op operand.dress
  | .binary op left right => .binary ⟨.point 0, .point 0⟩ op left.dress right.dress
  | .ifElse condition consequent alternative =>
    .ifElse ⟨.point 0, .point 0⟩ condition.dress consequent.dress alternative.dress
  | .lambda params body => .lambda ⟨.point 0, .point 0⟩ params (dressAll body)
  | .letIn bindings body => .letIn ⟨.point 0, .point 0⟩ (dressInits bindings) (dressAll body)
  | .letrec bindings body => .letrec ⟨.point 0, .point 0⟩ (dressInits bindings) (dressAll body)
  | .sequence forms => .sequence ⟨.point 0, .point 0⟩ (dressAll forms)
  | .app function args => .app ⟨.point 0, .point 0⟩ function.dress (dressAll args)
/-- Trees of terms. -/
def dressAll : List Term → List Expr
  | [] => []
  | t :: ts => t.dress :: dressAll ts
/-- Trees of bindings. -/
def dressInits : List (String × Term) → List (String × Expr)
  | [] => []
  | (name, t) :: rest => (name, t.dress) :: dressInits rest
/-- A tree of a template. -/
def TermTemplate.dress : TermTemplate → Template
  | .hole t => .hole t.dress
  | .list items => .list ⟨.point 0, .point 0⟩ (dressItems items)
  | .datum d => .datum d
/-- Trees of templates. -/
def dressItems : List TermTemplate → List Template
  | [] => []
  | t :: ts => t.dress :: dressItems ts
end

mutual
theorem Term.bare_dress : ∀ t : Term, t.dress.bare = t
  | .literal _ | .null | .var _ | .quote _ | .quoteForm _ => rfl
  | .quasi t => congrArg Term.quasi t.bare_dress
  | .unary op t => congrArg (Term.unary op) t.bare_dress
  | .binary _ l r => by rw [Term.dress, Expr.bare, l.bare_dress, r.bare_dress]
  | .ifElse c t e => by rw [Term.dress, Expr.bare, c.bare_dress, t.bare_dress, e.bare_dress]
  | .lambda params body => congrArg (Term.lambda params) (bare_dressAll body)
  | .letIn bindings body => by
    rw [Term.dress, Expr.bare, bare_dressInits bindings, bare_dressAll body]
  | .letrec bindings body => by
    rw [Term.dress, Expr.bare, bare_dressInits bindings, bare_dressAll body]
  | .sequence forms => congrArg Term.sequence (bare_dressAll forms)
  | .app f args => by rw [Term.dress, Expr.bare, f.bare_dress, bare_dressAll args]
theorem bare_dressAll : ∀ ts : List Term, bareAll (dressAll ts) = ts
  | [] => rfl
  | t :: ts => by rw [dressAll, bareAll, t.bare_dress, bare_dressAll ts]
theorem bare_dressInits : ∀ bindings : List (String × Term), bareInits (dressInits bindings) = bindings
  | [] => rfl
  | (_, t) :: rest => by rw [dressInits, bareInits, t.bare_dress, bare_dressInits rest]
theorem TermTemplate.bare_dress : ∀ t : TermTemplate, t.dress.bare = t
  | .hole t => congrArg TermTemplate.hole t.bare_dress
  | .datum _ => rfl
  | .list items => congrArg TermTemplate.list (bare_dressItems items)
theorem bare_dressItems : ∀ ts : List TermTemplate, bareItems (dressItems ts) = ts
  | [] => rfl
  | t :: ts => by rw [dressItems, bareItems, t.bare_dress, bare_dressItems ts]
end

/-- A term that is written somewhere is skipped as a whole. -/
theorem Term.skips (t : Term) : Skips t.kinds := by
  rw [← t.bare_dress, Expr.kinds_bare]
  exact t.dress.skips

theorem TermTemplate.skips (t : TermTemplate) : Skips t.kinds := by
  rw [← t.bare_dress, Template.kinds_bare]
  exact t.dress.skips

end LispMachine
