import LispMachine.Proofs.Nesting
import LispMachine.Proofs.Parsed

/-!
# How deep code is

The reader goes only so deep, and so do the data in a program, the blocks of its functions and the
blocks of its branches: nothing in the code of a form is nested as deep as the form is
(`Expr.code_within`). The code is never deeper than the program was written, because each block and each
list in it comes from a form or a datum of its own.

Data are taken out of code when it runs, and code out of data, as a closure is a value that holds code.
So the bound goes through closures (`Value.Within`): what is outside of them is nested only so deep, and
in their code nothing is deeper than lists may become.
-/

namespace LispMachine

/-! ## Values within a bound -/

mutual
/-- A value is nested no deeper than a bound, and nothing in the code of its closures is nested deeper than
lists may become. -/
def Value.Within : Value → Nat → Prop
  | .list items, n + 1 => AllWithin items n
  | .list _, 0 => False
  | .closure code _, _ => AllWithin code maxDataDepth
  | .number _, _ | .string _, _ | .symbol _, _ | .op _ _, _ => True
/-- Values are within a bound. -/
def AllWithin : List Value → Nat → Prop
  | [], _ => True
  | v :: vs, n => v.Within n ∧ AllWithin vs n
end

theorem allWithin_iff {vs : List Value} {n : Nat} : AllWithin vs n ↔ ∀ v ∈ vs, v.Within n := by
  induction vs with
  | nil => simp [AllWithin]
  | cons v vs ih => rw [AllWithin, ih, List.forall_mem_cons]

theorem allWithin_append {vs ws : List Value} {n : Nat} :
    AllWithin (vs ++ ws) n ↔ AllWithin vs n ∧ AllWithin ws n := by
  simp only [allWithin_iff, List.forall_mem_append]

theorem AllWithin.append {vs ws : List Value} {n : Nat} (hvs : AllWithin vs n) (hws : AllWithin ws n) :
    AllWithin (vs ++ ws) n :=
  allWithin_append.mpr ⟨hvs, hws⟩

mutual
theorem Value.Within.nesting_le : ∀ {v : Value} {n : Nat}, v.Within n → v.nesting ≤ n
  | .list items, _ + 1, h => Nat.succ_le_succ (nestings_le_of_allWithin items h)
  | .number _, _, _ | .string _, _, _ | .symbol _, _, _ | .op _ _, _, _ | .closure _ _, _, _ =>
    Nat.zero_le _
theorem nestings_le_of_allWithin : ∀ (vs : List Value) {n : Nat}, AllWithin vs n → Value.nestings vs ≤ n
  | [], _, _ => Nat.zero_le _
  | _ :: vs, _, h => Nat.max_le.mpr ⟨h.1.nesting_le, nestings_le_of_allWithin vs h.2⟩
end

mutual
/-- The bound can be exchanged for any other that the value keeps. -/
theorem Value.Within.of_nesting_le : ∀ {v : Value} {n m : Nat}, v.Within n → v.nesting ≤ m → v.Within m
  | .list items, _ + 1, _ + 1, h, hle => allWithin_of_nestings_le items h (Nat.le_of_succ_le_succ hle)
  | .closure _ _, _, _, h, _ => h
  | .number _, _, _, _, _ | .string _, _, _, _, _ | .symbol _, _, _, _, _ | .op _ _, _, _, _, _ => trivial
theorem allWithin_of_nestings_le : ∀ (vs : List Value) {n m : Nat}, AllWithin vs n →
    Value.nestings vs ≤ m → AllWithin vs m
  | [], _, _, _, _ => trivial
  | _ :: vs, _, _, h, hle => by
    rw [Value.nestings, Nat.max_le] at hle
    exact ⟨h.1.of_nesting_le hle.1, allWithin_of_nestings_le vs h.2 hle.2⟩
end

theorem AllWithin.mono {vs : List Value} {n m : Nat} (h : AllWithin vs n) (hle : n ≤ m) : AllWithin vs m :=
  allWithin_of_nestings_le vs h (Nat.le_trans (nestings_le_of_allWithin vs h) hle)

/-! ## Data -/

mutual
theorem Datum.value_within : ∀ (d : Datum) {n : Nat}, d.nesting ≤ n → d.value.Within n
  | .literal (.number _), _, _ | .literal (.boolean _), _, _ | .literal (.string _), _, _ => trivial
  | .word _, _, _ => trivial
  | .list items, _ + 1, h => values_within items (Nat.le_of_succ_le_succ h)
  | .marked _ d, _ + 1, h => ⟨trivial, d.value_within (Nat.le_of_succ_le_succ h), trivial⟩
theorem values_within : ∀ (ds : List Datum) {n : Nat}, dataNesting ds ≤ n → AllWithin (Datum.values ds) n
  | [], _, _ => trivial
  | d :: ds, _, h => ⟨d.value_within (Nat.max_le.mp h).1, values_within ds (Nat.max_le.mp h).2⟩
end

mutual
theorem Template.value?_within : ∀ (t : Template) {v : Value} {n : Nat}, t.value? = some v →
    t.bare.nesting ≤ n → v.Within n
  | .datum d, _, _, hvalue, h => by
    cases hvalue
    exact d.value_within (Nat.le_of_succ_le h)
  | .list _ items, _, _ + 1, hvalue, h => by
    obtain ⟨vs, hvs, rfl⟩ := Option.map_eq_some_iff.mp hvalue
    exact values?_within items hvs (Nat.le_of_succ_le_succ h)
theorem values?_within : ∀ (ts : List Template) {vs : List Value} {n : Nat},
    Template.values? ts = some vs → itemsNesting (bareItems ts) ≤ n → AllWithin vs n
  | [], _, _, hvalues, _ => by
    cases hvalues
    trivial
  | t :: ts, _, _, hvalues, h => by
    rw [Template.values?] at hvalues
    split at hvalues
    next v vs hv hvs =>
      cases hvalues
      exact ⟨t.value?_within hv (Nat.max_le.mp h).1, values?_within ts hvs (Nat.max_le.mp h).2⟩
    next => cases hvalues
end

/-! ## Code -/

/-- A function and its arguments are less deep than their call. The word `null` is no level there, and has
none in its code. -/
theorem Term.nesting_le_of_app {function : Term} {args : List Term} {n : Nat}
    (h : (Term.app function args).nesting ≤ n + 1) :
    function.nesting ≤ n + 1 ∧ termsNesting args ≤ n + 1 := by
  cases function with
  | null => exact ⟨Nat.succ_le_succ (Nat.zero_le n), Nat.le_of_succ_le h⟩
  | _ => exact Nat.max_le.mp (Nat.le_of_succ_le h)

namespace Code
variable {n : Nat}

theorem list_within {items : List Code} (span : Span) (h : ∀ code ∈ items, AllWithin code n) :
    AllWithin (list span items) n :=
  list_induction (P := (AllWithin · n)) AllWithin.append ⟨trivial, trivial⟩ ⟨trivial, trivial⟩ h

theorem sequence_within {items : List Code} (span : Span) (h : ∀ code ∈ items, AllWithin code n) :
    AllWithin (sequence span items) n :=
  sequence_induction (P := (AllWithin · n)) AllWithin.append trivial ⟨trivial, trivial⟩ h

end Code

/-- The code of an expression is within every bound that the expression goes beyond. -/
def Expr.CodeWithin (e : Expr) : Prop := ∀ n, e.bare.nesting ≤ n + 1 → AllWithin e.code n

/-- The block of a branch is one deeper than the code of its expression. -/
theorem Expr.CodeWithin.branch {e : Expr} (h : e.CodeWithin) {n : Nat} (hle : e.bare.nesting ≤ n)
    (span : Span) : (Code.branch span e.code).Within n := by
  obtain ⟨k, rfl⟩ := Nat.exists_eq_succ_of_ne_zero (Nat.ne_of_gt (Nat.lt_of_lt_of_le e.bare.nesting_pos hle))
  exact allWithin_append.mpr ⟨h k hle, trivial, trivial⟩

theorem allWithin_of_codes {es : List Expr} (h : ∀ e ∈ es, e.CodeWithin) {n : Nat}
    (hle : termsNesting (bareAll es) ≤ n + 1) : ∀ code ∈ codes es, AllWithin code n := by
  rw [bareAll_eq_map, termsNesting_le, List.forall_mem_map] at hle
  rw [codes_eq_map, List.forall_mem_map]
  exact fun e he => h e he n (hle e he)

/-- The block of a function is one deeper than the codes of its body. -/
theorem function_within {body : List Expr} (hne : body ≠ []) (h : ∀ e ∈ body, e.CodeWithin) {n : Nat}
    (hle : termsNesting (bareAll body) ≤ n) (parens : Parens) :
    (Code.function parens (codes body)).Within n := by
  obtain ⟨e, rest, rfl⟩ := List.exists_cons_of_ne_nil hne
  have hpos : 0 < n := Nat.lt_of_lt_of_le e.bare.nesting_pos (Nat.max_le.mp hle).1
  obtain ⟨k, rfl⟩ := Nat.exists_eq_succ_of_ne_zero (Nat.ne_of_gt hpos)
  exact allWithin_append.mpr
    ⟨Code.sequence_within parens.opening (allWithin_of_codes h hle), trivial, trivial⟩

section
variable {site : Site}

mutual
/-- **Nothing in the code of a form is nested as deep as the form.** -/
theorem Expr.code_within : ∀ {names : List (List String)} (e : Expr), e.Scoped site names → e.CodeWithin
  | _, .literal _ (.number _), _ | _, .literal _ (.boolean _), _ | _, .literal _ (.string _), _ =>
    fun _ _ => ⟨trivial, trivial, trivial⟩
  | _, .null _, _ => fun _ _ => ⟨trivial, trivial⟩
  | _, .var _ _ _, _ => fun _ _ => ⟨trivial, trivial, trivial, trivial⟩
  | _, .quote _ d, _ | _, .quoteForm _ d, _ => fun _ h =>
    ⟨trivial, d.value_within (Nat.le_of_succ_le_succ h), trivial⟩
  | _, .quasi span t, ht => fun _ h => t.code_within ht span (Nat.le_of_succ_le_succ h)
  | _, .unary _ _ e, he => fun n h =>
    allWithin_append.mpr ⟨e.code_within he n (Nat.le_of_succ_le h), trivial, trivial⟩
  | _, .binary _ _ l r, ⟨hl, hr⟩ => fun n h => by
    obtain ⟨hln, hrn⟩ := Nat.max_le.mp (Nat.le_of_succ_le_succ h)
    have hoperands := allWithin_append.mpr
      ⟨r.code_within hr n (Nat.le_succ_of_le hrn), l.code_within hl n (Nat.le_succ_of_le hln)⟩
    exact allWithin_append.mpr ⟨hoperands, trivial, trivial⟩
  | _, .ifElse parens c t e, ⟨hc, ht, he⟩ => fun n h => by
    obtain ⟨hcn, hrest⟩ := Nat.max_le.mp (Nat.le_of_succ_le_succ h)
    obtain ⟨htn, hen⟩ := Nat.max_le.mp hrest
    exact allWithin_append.mpr ⟨c.code_within hc n (Nat.le_succ_of_le hcn), trivial,
      (t.code_within ht).branch htn parens.span, (e.code_within he).branch hen parens.span, trivial⟩
  -- a body is not empty, so the block of a function is no deeper than the form around it
  | _, .lambda parens _ body, ⟨hne, hbody⟩ => fun n h =>
    ⟨trivial, function_within hne (codes_within body hbody) (Nat.le_of_succ_le_succ h) parens, trivial⟩
  | _, .letIn parens bindings body, ⟨hinits, hne, hbody⟩ => fun n h => by
    obtain ⟨hinitsn, hbodyn⟩ := Nat.max_le.mp (Nat.le_of_succ_le_succ h)
    have hlist := Code.list_within parens.span (initCodes_within bindings hinits (Nat.le_succ_of_le hinitsn))
    exact allWithin_append.mpr
      ⟨hlist, trivial, function_within hne (codes_within body hbody) hbodyn parens, trivial, trivial⟩
  | _, .letrec parens bindings body, ⟨hinits, hne, hbody⟩ => fun n h => by
    obtain ⟨hinitsn, hbodyn⟩ := Nat.max_le.mp (Nat.le_of_succ_le_succ h)
    have hlist := Code.list_within parens.span (initCodes_within bindings hinits (Nat.le_succ_of_le hinitsn))
    exact allWithin_append.mpr ⟨⟨trivial, hlist⟩, trivial,
      function_within hne (codes_within body hbody) hbodyn parens, trivial, trivial⟩
  | _, .sequence parens forms, ⟨_, hforms⟩ => fun n h =>
    Code.sequence_within parens.span (allWithin_of_codes (codes_within forms hforms) (Nat.le_of_succ_le h))
  -- the one form whose first part may be no level: null where it is called
  | _, .app parens f args, ⟨hf, hargs⟩ => fun n h => by
    obtain ⟨hfn, hargsn⟩ := Term.nesting_le_of_app h
    have hlist := Code.list_within parens.span (allWithin_of_codes (codes_within args hargs) hargsn)
    have hcall := allWithin_append.mpr ⟨hlist, f.code_within hf n hfn⟩
    exact allWithin_append.mpr ⟨hcall, trivial, trivial⟩
theorem codes_within : ∀ {names : List (List String)} (es : List Expr), ScopedAll site names es →
    ∀ e ∈ es, e.CodeWithin
  | _, [], _ => fun _ h => nomatch h
  | _, e :: es, ⟨h, hs⟩ => List.forall_mem_cons.mpr ⟨e.code_within h, codes_within es hs⟩
theorem initCodes_within : ∀ {names : List (List String)} (bindings : List (String × Expr)),
    ScopedInits site names bindings → ∀ {n : Nat}, initsNesting (bareInits bindings) ≤ n + 1 →
    ∀ code ∈ initCodes bindings, AllWithin code n
  | _, [], _ => fun _ _ h => nomatch h
  | _, (_, e) :: rest, ⟨h, hs⟩ => fun hle => by
    obtain ⟨hen, hrestn⟩ := Nat.max_le.mp hle
    exact List.forall_mem_cons.mpr ⟨e.code_within h _ hen, initCodes_within rest hs hrestn⟩
theorem Template.code_within : ∀ {names : List (List String)} (t : Template), t.Scoped site names →
    ∀ (span : Span) {n : Nat}, t.bare.nesting ≤ n → AllWithin (t.code span) n
  | _, .hole e, he, _, n, h => e.code_within he n (Nat.le_of_succ_le (Nat.le_succ_of_le h))
  | _, .datum d, _, _, _, h => ⟨trivial, d.value_within (Nat.le_of_succ_le h), trivial⟩
  | _, .list parens items, hitems, span, n + 1, h => by
    rw [Template.code]
    cases hvalues : Template.values? items with
    | some vs => exact ⟨trivial, values?_within items hvalues (Nat.le_of_succ_le_succ h), trivial⟩
    | none =>
      exact Code.list_within parens.span
        (templateCodes_within items hitems parens.span (Nat.le_of_succ_le h))
theorem templateCodes_within : ∀ {names : List (List String)} (ts : List Template),
    ScopedTemplates site names ts → ∀ (span : Span) {n : Nat}, itemsNesting (bareItems ts) ≤ n →
    ∀ code ∈ templateCodes span ts, AllWithin code n
  | _, [], _ => fun _ _ _ _ h => nomatch h
  | _, t :: ts, ⟨h, hs⟩ => fun span _ hle => by
    obtain ⟨htn, htsn⟩ := Nat.max_le.mp hle
    exact List.forall_mem_cons.mpr ⟨t.code_within h span htn, templateCodes_within ts hs span htsn⟩
end

theorem TopForm.code_within {globals : List String} {form : TopForm} (h : form.Scoped site globals)
    {n : Nat} (hle : form.bare.nesting ≤ n + 1) : AllWithin form.code n := by
  cases form with
  | value span e => exact e.code_within h n hle
  | defineVariable parens name e =>
    exact allWithin_append.mpr ⟨e.code_within h n (Nat.le_of_succ_le hle), trivial, trivial⟩
  | defineFunction parens name params body =>
    exact ⟨trivial, function_within h.1 (codes_within body h.2) (Nat.le_of_succ_le_succ hle) parens,
      trivial, trivial⟩

theorem Program.code_within {globals : List String} {p : Program} (h : p.Scoped site globals) {n : Nat}
    (hle : ∀ form ∈ p.bare, form.nesting ≤ n + 1) : AllWithin p.code n := by
  induction p generalizing globals with
  | nil => trivial
  | cons form rest ih =>
    obtain ⟨hform, hrest⟩ := List.forall_mem_cons.mp hle
    have hcode := TopForm.code_within h.1 hform
    cases rest with
    | nil => exact hcode
    | cons next rest =>
      have hdrop : AllWithin form.drop n := by
        cases form with
        | value => exact ⟨trivial, trivial⟩
        | defineVariable | defineFunction => trivial
      have hfirst := allWithin_append.mpr ⟨hcode, hdrop⟩
      exact allWithin_append.mpr ⟨hfirst, ih h.2 hrest⟩

end

/-- **Nothing in compiled code is nested as deep as sources may be.** -/
theorem Program.code_within_of_ofRun {globals : List String} {r : TokenRun} {p : Program}
    (h : Program.ofRun globals r = .ok p) : AllWithin p.code (maxNesting - 1) :=
  Program.code_within (Program.scoped_of_ofRun h) (Program.wellFormed_of_ofRun h).nesting

end LispMachine
