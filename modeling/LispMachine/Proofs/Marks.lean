import LispMachine.Bytecode
import LispMachine.Proofs.Erasure
import LispMachine.Proofs.Scoping

/-!
# Marked variables

The machine does not say how deep the scope of an instruction was when it was compiled, but origins have
no influence on what it does. So the number is written where it can be read back: a tree whose variables
are marked carries, in the place of the span of each variable, the number of frames of the scope that the
variable stands in. Marked code is the code of the same tree but for
origins (`Program.code_mark`), and so it executes in step with it. Each `LD` of it says how many frames
the scope had when the instruction was emitted.
-/

namespace LispMachine

/-- The condition that the span of a variable is the mark for its number of frames. -/
def Site.marked : Site := fun span depth => span = .point depth

mutual
/-- Marks the variables of an expression that stands in a scope of so many frames. -/
def Expr.mark (depth : Nat) : Expr → Expr
  | .literal span l => .literal span l
  | .null span => .null span
  | .var _ name address => .var (.point depth) name address
  | .quote span datum => .quote span datum
  | .quoteForm parens datum => .quoteForm parens datum
  | .quasi span template => .quasi span (template.mark depth)
  | .unary parens op operand => .unary parens op (operand.mark depth)
  | .binary parens op left right => .binary parens op (left.mark depth) (right.mark depth)
  | .ifElse parens c t e => .ifElse parens (c.mark depth) (t.mark depth) (e.mark depth)
  | .lambda parens params body => .lambda parens params (markAll (depth + 1) body)
  | .letIn parens bindings body => .letIn parens (markInits depth bindings) (markAll (depth + 1) body)
  | .letrec parens bindings body =>
    .letrec parens (markInits (depth + 1) bindings) (markAll (depth + 1) body)
  | .sequence parens forms => .sequence parens (markAll depth forms)
  | .app parens function args => .app parens (function.mark depth) (markAll depth args)
/-- Marks expressions. -/
def markAll (depth : Nat) : List Expr → List Expr
  | [] => []
  | e :: es => e.mark depth :: markAll depth es
/-- Marks initialisers. -/
def markInits (depth : Nat) : List (String × Expr) → List (String × Expr)
  | [] => []
  | (name, e) :: rest => (name, e.mark depth) :: markInits depth rest
/-- Marks the holes of a template. -/
def Template.mark (depth : Nat) : Template → Template
  | .hole e => .hole (e.mark depth)
  | .datum d => .datum d
  | .list parens items => .list parens (markTemplates depth items)
/-- Marks the holes of templates. -/
def markTemplates (depth : Nat) : List Template → List Template
  | [] => []
  | t :: ts => t.mark depth :: markTemplates depth ts
end

/-- Marks a top-level form, which stands in the global frame alone. -/
def TopForm.mark : TopForm → TopForm
  | .value span e => .value span (e.mark 1)
  | .defineVariable parens name e => .defineVariable parens name (e.mark 1)
  | .defineFunction parens name params body => .defineFunction parens name params (markAll 2 body)

/-- Marks a program. -/
def Program.mark (p : Program) : Program := p.map TopForm.mark

/-! ## Marked trees are scoped -/

theorem names_markInits (depth : Nat) (bindings : List (String × Expr)) :
    (markInits depth bindings).map (·.1) = bindings.map (·.1) := by
  induction bindings with
  | nil => rfl
  | cons b bs ih => rw [markInits, List.map_cons, List.map_cons, ih]

theorem markAll_ne_nil {depth : Nat} {es : List Expr} (h : es ≠ []) : markAll depth es ≠ [] := by
  cases es with
  | nil => exact absurd rfl h
  | cons e es => exact List.cons_ne_nil _ _

mutual
theorem Expr.scoped_mark (names : List (List String)) :
    ∀ e : Expr, e.Scoped .anywhere names → (e.mark names.length).Scoped .marked names
  | .literal _ _, _ | .null _, _ | .quote _ _, _ | .quoteForm _ _, _ => trivial
  | .var _ _ _, ⟨hres, hlen, _⟩ => ⟨hres, hlen, rfl⟩
  | .quasi _ t, h => t.scoped_mark names h
  | .unary _ _ e, h => e.scoped_mark names h
  | .binary _ _ l r, ⟨hl, hr⟩ => ⟨l.scoped_mark names hl, r.scoped_mark names hr⟩
  | .ifElse _ c t e, ⟨hc, ht, he⟩ =>
    ⟨c.scoped_mark names hc, t.scoped_mark names ht, e.scoped_mark names he⟩
  | .lambda _ params body, ⟨hne, h⟩ =>
    ⟨markAll_ne_nil hne, scopedAll_mark (params :: names) body h⟩
  | .letIn _ bindings body, ⟨hinits, hne, h⟩ => by
    rw [Expr.mark, Expr.Scoped, names_markInits]
    exact ⟨scopedInits_mark names bindings hinits, markAll_ne_nil hne, scopedAll_mark (_ :: names) body h⟩
  | .letrec _ bindings body, ⟨hinits, hne, h⟩ => by
    rw [Expr.mark, Expr.Scoped, names_markInits]
    exact ⟨scopedInits_mark (_ :: names) bindings hinits, markAll_ne_nil hne,
      scopedAll_mark (_ :: names) body h⟩
  | .sequence _ forms, ⟨hne, h⟩ => ⟨markAll_ne_nil hne, scopedAll_mark names forms h⟩
  | .app _ f args, ⟨hf, hargs⟩ => ⟨f.scoped_mark names hf, scopedAll_mark names args hargs⟩
theorem scopedAll_mark (names : List (List String)) :
    ∀ es : List Expr, ScopedAll .anywhere names es → ScopedAll .marked names (markAll names.length es)
  | [], _ => trivial
  | e :: es, ⟨h, hs⟩ => ⟨e.scoped_mark names h, scopedAll_mark names es hs⟩
theorem scopedInits_mark (names : List (List String)) :
    ∀ bindings : List (String × Expr), ScopedInits .anywhere names bindings →
      ScopedInits .marked names (markInits names.length bindings)
  | [], _ => trivial
  | (_, e) :: rest, ⟨h, hs⟩ => ⟨e.scoped_mark names h, scopedInits_mark names rest hs⟩
theorem Template.scoped_mark (names : List (List String)) :
    ∀ t : Template, t.Scoped .anywhere names → (t.mark names.length).Scoped .marked names
  | .hole e, h => e.scoped_mark names h
  | .datum _, _ => trivial
  | .list _ items, h => scopedTemplates_mark names items h
theorem scopedTemplates_mark (names : List (List String)) :
    ∀ ts : List Template, ScopedTemplates .anywhere names ts →
      ScopedTemplates .marked names (markTemplates names.length ts)
  | [], _ => trivial
  | t :: ts, ⟨h, hs⟩ => ⟨t.scoped_mark names h, scopedTemplates_mark names ts hs⟩
end

theorem TopForm.defined?_mark (form : TopForm) : form.mark.defined? = form.defined? := by
  cases form <;> rfl

theorem TopForm.scoped_mark {globals : List String} {form : TopForm}
    (h : form.Scoped .anywhere globals) : form.mark.Scoped .marked globals := by
  cases form with
  | value span e => exact e.scoped_mark [globals] h
  | defineVariable parens name e => exact e.scoped_mark [globals ++ [name]] h
  | defineFunction parens name params body =>
    exact ⟨markAll_ne_nil h.1, scopedAll_mark [params, globals ++ [name]] body h.2⟩

/-- **Every mark is the number of frames of the scope.** -/
theorem Program.scoped_mark (p : Program) (globals : List String) (h : p.Scoped .anywhere globals) :
    p.mark.Scoped .marked globals := by
  induction p generalizing globals with
  | nil => trivial
  | cons form rest ih =>
    refine ⟨TopForm.scoped_mark h.1, ?_⟩
    rw [TopForm.defined?_mark]
    exact ih _ h.2

theorem Program.definedNames_mark (p : Program) : p.mark.definedNames = p.definedNames := by
  unfold Program.definedNames Program.mark
  rw [List.filterMap_map]
  exact congrArg (List.filterMap · p) (funext TopForm.defined?_mark)

/-! ## Marked code -/

namespace Code
variable (span : Span) (parens : Parens)

/-- The code that builds a list is made of the codes of its items, with or without origins. -/
theorem erase_list {items items' : List Code}
    (h : items.map (List.map Value.erase) = items'.map (List.map Value.erase)) :
    (list span items).map Value.erase = (list span items').map Value.erase := by
  have hmap : ∀ items : List Code, (list span items).map Value.erase =
      .op .nil none :: (items.map (List.map Value.erase)).reverse.flatMap (· ++ [.op .cons none]) := by
    intro items
    rw [list, List.map_cons, List.map_flatMap, ← List.map_reverse, List.flatMap_map]
    simp only [List.map_append]
    rfl
  rw [hmap, hmap, h]

theorem erase_sequence {codes codes' : List Code}
    (h : codes.map (List.map Value.erase) = codes'.map (List.map Value.erase)) :
    (sequence span codes).map Value.erase = (sequence span codes').map Value.erase := by
  -- the separating POP depends on whether more code follows, so both lists are split in step
  induction codes generalizing codes' with
  | nil =>
    cases codes' with
    | nil => rfl
    | cons => cases h
  | cons code rest ih =>
    cases codes' with
    | nil => cases h
    | cons code' rest' =>
      obtain ⟨hcode, hrest⟩ := List.cons.inj h
      cases rest with
      | nil =>
        cases rest' with
        | nil => exact hcode
        | cons => cases hrest
      | cons next rest =>
        cases rest' with
        | nil => cases hrest
        | cons next' rest' =>
          show (code ++ instr .pop span :: sequence span (next :: rest)).map _ =
            (code' ++ instr .pop span :: sequence span (next' :: rest')).map _
          rw [List.map_append, List.map_append, List.map_cons, List.map_cons, hcode, ih hrest]

theorem erase_function {body body' : List Code}
    (h : body.map (List.map Value.erase) = body'.map (List.map Value.erase)) :
    (function parens body).erase = (function parens body').erase := by
  rw [function, function, Value.erase_list, Value.erase_list, List.map_append, List.map_append,
    erase_sequence parens.opening h]

theorem erase_branch {code code' : Code} (h : code.map Value.erase = code'.map Value.erase) :
    (branch span code).erase = (branch span code').erase := by
  rw [branch, branch, Value.erase_list, Value.erase_list, List.map_append, List.map_append, h]

end Code

mutual
theorem Template.value?_mark (depth : Nat) : ∀ t : Template, (t.mark depth).value? = t.value?
  | .hole _ | .datum _ => rfl
  | .list _ items => congrArg (Option.map Value.list) (values?_mark depth items)
theorem values?_mark (depth : Nat) :
    ∀ ts : List Template, Template.values? (markTemplates depth ts) = Template.values? ts
  | [] => rfl
  | t :: ts => by
    rw [markTemplates, Template.values?, Template.values?, t.value?_mark depth, values?_mark depth ts]
end

mutual
theorem Expr.code_mark (depth : Nat) :
    ∀ e : Expr, (e.mark depth).code.map Value.erase = e.code.map Value.erase
  | .literal _ _ | .null _ | .var _ _ _ | .quote _ _ | .quoteForm _ _ => rfl
  | .quasi span t => t.code_mark depth span
  | .unary _ _ e => by
    rw [Expr.mark, Expr.code, Expr.code, List.map_append, List.map_append, e.code_mark depth]
  | .binary _ _ l r => by
    simp only [Expr.mark, Expr.code, List.map_append, l.code_mark depth, r.code_mark depth]
  | .ifElse _ c t e => by
    simp only [Expr.mark, Expr.code, List.map_append, List.map_cons, c.code_mark depth,
      Code.erase_branch _ (t.code_mark depth), Code.erase_branch _ (e.code_mark depth)]
  | .lambda _ _ body => by
    simp only [Expr.mark, Expr.code, List.map_cons, Code.erase_function _ (codes_mark (depth + 1) body)]
  | .letIn _ bindings body => by
    simp only [Expr.mark, Expr.code, List.map_append, List.map_cons,
      Code.erase_list _ (initCodes_mark depth bindings),
      Code.erase_function _ (codes_mark (depth + 1) body)]
  | .letrec _ bindings body => by
    simp only [Expr.mark, Expr.code, List.map_append, List.map_cons,
      Code.erase_list _ (initCodes_mark (depth + 1) bindings),
      Code.erase_function _ (codes_mark (depth + 1) body)]
  | .sequence _ forms => Code.erase_sequence _ (codes_mark depth forms)
  | .app _ f args => by
    simp only [Expr.mark, Expr.code, List.map_append, f.code_mark depth,
      Code.erase_list _ (codes_mark depth args)]
theorem codes_mark (depth : Nat) : ∀ es : List Expr,
    (codes (markAll depth es)).map (List.map Value.erase) = (codes es).map (List.map Value.erase)
  | [] => rfl
  | e :: es => by
    rw [markAll, codes, codes, List.map_cons, List.map_cons, e.code_mark depth, codes_mark depth es]
theorem initCodes_mark (depth : Nat) : ∀ bindings : List (String × Expr),
    (initCodes (markInits depth bindings)).map (List.map Value.erase) =
      (initCodes bindings).map (List.map Value.erase)
  | [] => rfl
  | (_, e) :: rest => by
    rw [markInits, initCodes, initCodes, List.map_cons, List.map_cons, e.code_mark depth,
      initCodes_mark depth rest]
theorem Template.code_mark (depth : Nat) (span : Span) :
    ∀ t : Template, ((t.mark depth).code span).map Value.erase = (t.code span).map Value.erase
  | .hole e => e.code_mark depth
  | .datum _ => rfl
  | .list parens items => by
    rw [Template.mark, Template.code, Template.code, values?_mark]
    cases Template.values? items with
    | some vs => rfl
    | none => exact Code.erase_list _ (templateCodes_mark depth parens.span items)
theorem templateCodes_mark (depth : Nat) (span : Span) : ∀ ts : List Template,
    (templateCodes span (markTemplates depth ts)).map (List.map Value.erase) =
      (templateCodes span ts).map (List.map Value.erase)
  | [] => rfl
  | t :: ts => by
    rw [markTemplates, templateCodes, templateCodes, List.map_cons, List.map_cons,
      t.code_mark depth span, templateCodes_mark depth span ts]
end

theorem TopForm.code_mark (form : TopForm) :
    form.mark.code.map Value.erase = form.code.map Value.erase := by
  cases form with
  | value span e => exact e.code_mark 1
  | defineVariable parens name e =>
    rw [TopForm.mark, TopForm.code, TopForm.code, List.map_append, List.map_append, e.code_mark 1]
  | defineFunction parens name params body =>
    simp only [TopForm.mark, TopForm.code, List.map_cons, Code.erase_function _ (codes_mark 2 body)]

/-- **Marked code is the code of the program, but for origins.** -/
theorem Program.code_mark (p : Program) : p.mark.code.map Value.erase = p.code.map Value.erase := by
  induction p with
  | nil => rfl
  | cons form rest ih =>
    cases rest with
    | nil => exact form.code_mark
    | cons next rest =>
      have hdrop : form.mark.drop = form.drop := by cases form <;> rfl
      show (form.mark.code ++ form.mark.drop ++ Program.code (Program.mark (next :: rest))).map _ = _
      rw [Program.code, List.map_append, List.map_append, List.map_append, List.map_append,
        form.code_mark, hdrop, ih]

end LispMachine
