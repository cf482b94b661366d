import LispMachine.Proofs.Bracketing
import LispMachine.Proofs.Increments

/-!
# Compiled code is balanced

The code of an expression, executed on any stack, in any environment and over any dump, comes to what
follows it with one value more on the stack and with the environment and the dump that it started with
(`balanced_expr`). This asks nothing of the store: the functions that are called can have any code, because
a caller comes back with what it has saved or does not come back at all.

`Until` says of a run that it stays inside of some code until it has left it in a given way. It is composed
like the code is, one piece after the other (`Until.bind`).

A call is the place where nothing is known of the code that is executed. There the dump is what counts: the
entry of the caller lies on it, and the entries below stay as they are until the entry itself is taken
(`Machine.suffix_or_resumes`), so a run that comes back comes back to it (`Until.returns`).

A whole program that halts has nothing left to do and nothing on the dump. On the stack is the value of its
last form, if that is an expression.
-/

namespace LispMachine

/-- A run that stays inside, for as many steps as there is fuel, or until it comes to a machine that it is
to come to, or to its end. -/
inductive Until (Inside Post : Machine → Prop) : Nat → Machine → Prop
  | done {fuel : Nat} {m : Machine} (h : Post m) : Until Inside Post fuel m
  | spent {m : Machine} : Until Inside Post 0 m
  | step {fuel : Nat} {m : Machine} (inside : Inside m)
      (rest : ∀ next, m.step = .ok (some next) → Until Inside Post fuel next) :
      Until Inside Post (fuel + 1) m

/-- A machine is inside of code that is followed by `C` over the dump `D`: it has more on the dump, or is
not done with the code. -/
def Inside (C : Code) (D : List DumpEntry) (m : Machine) : Prop :=
  D.length < m.dump.length ∨ m.dump = D ∧ C.length < m.code.length

/-- A machine has come to registers with one more value on the stack. -/
def OneMore (r : Registers) (m : Machine) : Prop := ∃ v, m.registers = r.push v

/-- Code that leaves one value on the stack, and all else as it was. -/
def Balanced (code : Code) : Prop :=
  ∀ (fuel : Nat) (S : Stack) (E : Environment) (C : Code) (D : List DumpEntry) (m : Machine),
    m.registers = ⟨S, E, code ++ C, D⟩ → Until (Inside C D) (OneMore ⟨S, E, C, D⟩) fuel m

namespace Inside
variable {C : Code} {D : List DumpEntry} {m : Machine}

/-- An instruction in front of what follows. -/
theorem of_front (code : Code) {S : Stack} {E : Environment} {instruction : Value}
    (hm : m.registers = ⟨S, E, instruction :: (code ++ C), D⟩) : Inside C D m := by
  refine .inr ⟨?_, ?_⟩
  · rw [Machine.dump, hm]
  · rw [Machine.code, hm, List.length_cons, List.length_append]
    exact Nat.lt_succ_of_le (Nat.le_add_left _ _)

/-- What is inside of a piece of code is inside of the whole. -/
theorem of_append {code : Code} (h : Inside (code ++ C) D m) : Inside C D m := by
  refine h.imp_right ?_
  rintro ⟨hdump, hcode⟩
  refine ⟨hdump, Nat.lt_of_le_of_lt ?_ hcode⟩
  rw [List.length_append]
  exact Nat.le_add_left _ _

/-- What is inside of a branch is inside of the code around it. -/
theorem of_cons {C' : Code} {entry : DumpEntry} (h : Inside C' (entry :: D) m) : Inside C D m := by
  left
  rcases h with hdump | ⟨hdump, -⟩
  · exact Nat.lt_of_succ_lt hdump
  · rw [hdump]
    exact Nat.lt_succ_self _

end Inside

namespace Until
variable {Inside Post Inside' Post' : Machine → Prop} {fuel n : Nat} {m last : Machine}

theorem less (h : Until Inside Post fuel m) (hle : n ≤ fuel) : Until Inside Post n m := by
  induction h generalizing n with
  | done h => exact .done h
  | spent =>
    obtain rfl := Nat.le_zero.mp hle
    exact .spent
  | step inside _ ih =>
    cases n with
    | zero => exact .spent
    | succ n => exact .step inside fun next hstep => ih next hstep (Nat.le_of_succ_le_succ hle)

/-- One piece of code after the other. -/
theorem bind (h : Until Inside Post fuel m) (himp : ∀ m, Inside m → Inside' m)
    (hnext : ∀ m, Post m → Until Inside' Post' fuel m) : Until Inside' Post' fuel m := by
  induction h with
  | done h => exact hnext _ h
  | spent => exact .spent
  | step inside _ ih =>
    refine .step (himp _ inside) fun next hstep => ih next hstep fun m hm => ?_
    exact (hnext m hm).less (Nat.le_succ _)

/-- The first machine outside is one that the run was to come to. -/
theorem post_of_first (h : Until Inside Post fuel m) (Outside : Machine → Prop)
    (hpost : ∀ m, Post m → Outside m) (hinside : ∀ m, Inside m → ¬ Outside m) (hlt : n < fuel)
    (hlast : m.after n = some last) (hout : Outside last)
    (hfirst : ∀ k < n, ∀ between, m.after k = some between → ¬ Outside between) : Post last := by
  induction h generalizing n with
  -- a machine that the run was to come to is outside, so it is the first one outside and none before it
  | @done fuel m h =>
    cases n with
    | zero =>
      cases hlast
      exact h
    | succ n => exact absurd (hpost m h) (hfirst 0 (Nat.succ_pos n) m rfl)
  | spent => cases hlt
  | @step fuel m inside _ ih =>
    cases n with
    | zero =>
      cases hlast
      exact absurd hout (hinside _ inside)
    | succ n =>
      obtain ⟨next, hstep, hnext⟩ := Machine.after_eq_some_succ hlast
      refine ih next hstep (Nat.lt_of_succ_lt_succ hlt) hnext fun k hk between hbetween => ?_
      refine hfirst (k + 1) (Nat.succ_lt_succ hk) between ?_
      rw [Machine.after_succ hstep, hbetween]

section
variable {op : Opcode} {origin : Option Span} {S : Stack} {E : Environment} {C : Code}
  {D : List DumpEntry}

/-- An instruction at the front of the code. -/
theorem perform (hm : m.registers = ⟨S, E, .op op origin :: C, D⟩) (inside : Inside m)
    (rest : ∀ r' effect next, Performs m.store op ⟨S, E, C, D⟩ r' effect → next.registers = r' →
      Until Inside Post fuel next) : Until Inside Post fuel m := by
  cases fuel with
  | zero => exact .spent
  | succ fuel =>
    refine .step inside fun next hstep => ?_
    obtain ⟨move, hmove, rfl⟩ := Machine.step_eq_some_iff.mp hstep
    obtain ⟨r, hr, hperforms⟩ := Machine.performs_of_next hmove
    rw [hm] at hr
    obtain ⟨S', E', C', D'⟩ := r
    simp only [Registers.mk.injEq, List.cons.injEq, Value.op.injEq] at hr
    obtain ⟨rfl, rfl, ⟨⟨rfl, rfl⟩, rfl⟩, rfl⟩ := hr
    exact (rest _ _ _ hperforms rfl).less (Nat.le_succ fuel)

/-- An instruction that takes values from the stack and puts others there. -/
theorem exchange (taken : Stack) (operands : Code)
    (hm : m.registers = ⟨taken ++ S, E, .op op origin :: (operands ++ C), D⟩) (inside : Inside m)
    (counts : op.exchange? = some (taken.length, n)) (operandCount : op.operandCount = operands.length)
    (rest : ∀ given next, given.length = n → next.registers = ⟨given ++ S, E, C, D⟩ →
      Until Inside Post fuel next) : Until Inside Post fuel m := by
  refine .perform hm inside fun r' effect next hperforms hnext => ?_
  obtain ⟨given, hgiven, rfl⟩ := hperforms.of_exchange counts operandCount
  exact rest given next hgiven hnext

end

/-- A call comes back with a value for the caller that was saved, or does not come back. -/
theorem returns {S : Stack} {E : Environment} {C : Code} {D : List DumpEntry}
    (h : .call S E C :: D <:+ m.dump) :
    Until (LispMachine.Inside C D) (OneMore ⟨S, E, C, D⟩) fuel m := by
  induction fuel generalizing m with
  | zero => exact .spent
  | succ fuel ih =>
    refine .step (.inl (Nat.lt_of_succ_le h.length_le)) fun next hstep => ?_
    obtain ⟨move, hmove, rfl⟩ := Machine.step_eq_some_iff.mp hstep
    -- the entry of the caller is still on the dump, or this step takes it and goes on there
    rcases Machine.suffix_or_resumes hmove h with hsuffix | ⟨r, -, hresumes⟩
    · exact ih hsuffix
    · obtain ⟨-, v, rest, -, hregisters⟩ := hresumes.of_call
      exact .done ⟨v, hregisters⟩

end Until

/-! ## Pieces of code

Balance is closed under putting one piece of code behind the other. What a piece takes from the stack, another
has left there.
-/

namespace Balanced
variable {op : Opcode} {origin : Option Span} {code : Code}

/-- An instruction that puts a value on the stack, with its operands. -/
theorem load (operands : Code) (counts : op.exchange? = some (0, 1))
    (operandCount : op.operandCount = operands.length) : Balanced (.op op origin :: operands) := by
  intro fuel S E C D m hm
  refine .exchange [] operands hm (.of_front operands hm) counts operandCount
    fun given next hgiven hnext => ?_
  obtain ⟨v, rfl⟩ := List.length_eq_one_iff.mp hgiven
  exact .done ⟨v, hnext⟩

theorem unary (h : Balanced code) (counts : op.exchange? = some (1, 1))
    (operandCount : op.operandCount = 0) : Balanced (code ++ [.op op origin]) := by
  intro fuel S E C D m hm
  rw [List.append_assoc] at hm
  refine (h fuel S E _ D m hm).bind (fun _ => .of_append) ?_
  rintro m' ⟨v, hm'⟩
  refine .exchange [v] [] hm' (.of_front [] hm') counts operandCount fun given next hgiven hnext => ?_
  obtain ⟨w, rfl⟩ := List.length_eq_one_iff.mp hgiven
  exact .done ⟨w, hnext⟩

theorem binary {first second : Code} (hfirst : Balanced first) (hsecond : Balanced second)
    (counts : op.exchange? = some (2, 1)) (operandCount : op.operandCount = 0) :
    Balanced (first ++ second ++ [.op op origin]) := by
  intro fuel S E C D m hm
  rw [List.append_assoc, List.append_assoc] at hm
  refine (hfirst fuel S E _ D m hm).bind (fun _ h => h.of_append.of_append) ?_
  rintro m₁ ⟨v, hm₁⟩
  refine (hsecond fuel (v :: S) E _ D m₁ hm₁).bind (fun _ => .of_append) ?_
  rintro m₂ ⟨w, hm₂⟩
  refine .exchange [w, v] [] hm₂ (.of_front [] hm₂) counts operandCount fun given next hgiven hnext => ?_
  obtain ⟨u, rfl⟩ := List.length_eq_one_iff.mp hgiven
  exact .done ⟨u, hnext⟩

/-- One expression after the other, for the value of the second. -/
theorem next {first second : Code} (hfirst : Balanced first) (hsecond : Balanced second) :
    Balanced (first ++ .op .pop origin :: second) := by
  intro fuel S E C D m hm
  rw [List.append_assoc] at hm
  refine (hfirst fuel S E _ D m hm).bind (fun _ => .of_append) ?_
  rintro m₁ ⟨v, hm₁⟩
  refine .exchange [v] [] hm₁ (.of_front second hm₁) rfl rfl fun given next hgiven hnext => ?_
  obtain rfl := List.length_eq_zero_iff.mp hgiven
  exact hsecond fuel S E C D next hnext

/-- A branch: the code of one of two expressions, in front of the way back. -/
theorem branch {condition consequent alternative : Code} {origin' : Option Span}
    (hcondition : Balanced condition) (hconsequent : Balanced consequent)
    (halternative : Balanced alternative) :
    Balanced (condition ++ [.op .sel origin, .list (consequent ++ [.op .join origin']),
      .list (alternative ++ [.op .join origin'])]) := by
  intro fuel S E C D m hm
  rw [List.append_assoc] at hm
  refine (hcondition fuel S E _ D m hm).bind (fun _ => .of_append) ?_
  rintro m₁ ⟨v, hm₁⟩
  refine .perform hm₁ (.of_front [_, _] hm₁) fun r' effect m₂ hperforms hm₂ => ?_
  obtain ⟨v', consequent', alternative', S', C', hstack, hcode, rfl, -⟩ := hperforms.of_sel
  cases hstack
  cases hcode
  -- one of the two branches, each in front of the same `JOIN`
  have hbranch : ∃ code, Balanced code ∧
      m₂.registers = ⟨S, E, code ++ [.op .join origin'], .join C :: D⟩ := by
    cases htruthy : v.isTruthy with
    | true => exact ⟨consequent, hconsequent, by rw [hm₂, htruthy]; rfl⟩
    | false => exact ⟨alternative, halternative, by rw [hm₂, htruthy]; rfl⟩
  obtain ⟨code, hcode, hm₂⟩ := hbranch
  refine (hcode fuel S E _ _ m₂ hm₂).bind (fun _ => .of_cons) ?_
  rintro m₃ ⟨w, hm₃⟩
  have inside : Inside C D m₃ := .of_cons (.of_front [] hm₃)
  refine .perform hm₃ inside fun r' effect m₄ hperforms hm₄ => ?_
  obtain ⟨C', D', hdump, rfl, -⟩ := hperforms.of_join
  cases hdump
  exact .done ⟨w, hm₄⟩

/-- The list without items. -/
theorem nil (span : Span) : Balanced (Code.list span []) := load [] rfl rfl

/-- A list with one more item at its head, which is evaluated last. -/
theorem cons {span : Span} {item : Code} {items : List Code} (hitem : Balanced item)
    (hitems : Balanced (Code.list span items)) : Balanced (Code.list span (item :: items)) := by
  rw [Code.list_cons, ← List.append_assoc]
  exact hitems.binary hitem rfl rfl

/-- A call: the arguments, the function, and `AP`. -/
theorem call {args function : Code} (hargs : Balanced args) (hfunction : Balanced function) :
    Balanced (args ++ function ++ [.op .ap origin]) := by
  intro fuel S E C D m hm
  rw [List.append_assoc, List.append_assoc] at hm
  refine (hargs fuel S E _ D m hm).bind (fun _ h => h.of_append.of_append) ?_
  rintro m₁ ⟨v, hm₁⟩
  refine (hfunction fuel (v :: S) E _ D m₁ hm₁).bind (fun _ => .of_append) ?_
  rintro m₂ ⟨w, hm₂⟩
  refine .perform hm₂ (.of_front [] hm₂) fun r' effect m₃ hperforms hm₃ => ?_
  obtain ⟨code, env, args, S', hstack, rfl, -⟩ := hperforms.of_ap
  cases hstack
  refine .returns ?_
  rw [Machine.dump, hm₃]
  exact List.suffix_rfl

/-- `let`: a call of a function that is made on the spot. -/
theorem letIn {args : Code} {block : Value} {origin' : Option Span} (hargs : Balanced args) :
    Balanced (args ++ [.op .ldf origin', block, .op .ap origin]) := by
  show Balanced (args ++ ([.op .ldf origin', block] ++ [.op .ap origin]))
  rw [← List.append_assoc]
  exact hargs.call (.load [block] rfl rfl)

/-- `letrec`: the same in an environment with an empty frame, which `RAP` takes away from what it saves. -/
theorem letrec {args : Code} {block : Value} {origin' origin'' : Option Span} (hargs : Balanced args) :
    Balanced (.op .dum origin'' :: args ++ [.op .ldf origin', block, .op .rap origin]) := by
  intro fuel S E C D m hm
  -- the environment has one frame more while the initialisers are evaluated
  have inside : Inside C D m := .of_front (args ++ [.op .ldf origin', block, .op .rap origin]) hm
  rw [List.append_assoc, List.cons_append] at hm
  refine .perform hm inside fun r' effect m₁ hperforms hm₁ => ?_
  obtain ⟨rfl, -⟩ := hperforms.of_dum
  refine (hargs fuel S (m.store.size :: E) _ D m₁ hm₁).bind (fun _ => .of_append) ?_
  rintro m₂ ⟨v, hm₂⟩
  refine .exchange [] [block] hm₂ (.of_front [block, .op .rap origin] hm₂) rfl rfl
    fun given m₃ hgiven hm₃ => ?_
  obtain ⟨w, rfl⟩ := List.length_eq_one_iff.mp hgiven
  refine .perform hm₃ (.of_front [] hm₃) fun r' effect m₄ hperforms hm₄ => ?_
  obtain ⟨code, dummy, env, args, S', f, E', hstack, henv, rfl, -⟩ := hperforms.of_rap
  cases hstack
  cases henv
  refine .returns ?_
  rw [Machine.dump, hm₄]
  exact List.suffix_rfl

end Balanced

/-! ## Expressions -/

theorem UnaryOp.exchange_opcode (op : UnaryOp) :
    op.opcode.exchange? = some (1, 1) ∧ op.opcode.operandCount = 0 := by
  cases op <;> exact ⟨rfl, rfl⟩

theorem BinaryOp.exchange_opcode (op : BinaryOp) :
    op.opcode.exchange? = some (2, 1) ∧ op.opcode.operandCount = 0 := by
  cases op with
  | cons | and | or => exact ⟨rfl, rfl⟩
  | operator o => cases o <;> exact ⟨rfl, rfl⟩

mutual
/-- **The code of an expression is balanced.** Of the tree only this much is asked, that no body in it is
empty. -/
theorem balanced_expr : ∀ (names : List (List String)) (e : Expr), e.Scoped .anywhere names →
    Balanced e.code
  | _, .literal _ l, _ => by
    rw [Expr.code]
    exact .load [l.value] rfl rfl
  | _, .null span, _ => by
    rw [Expr.code]
    exact .nil span
  | _, .var _ _ address, _ => by
    rw [Expr.code]
    exact .load [.number (.ofIndex address.depth), .number (.ofIndex address.offset)] rfl rfl
  | _, .quote _ d, _ | _, .quoteForm _ d, _ => by
    rw [Expr.code]
    exact .load [d.value] rfl rfl
  | names, .quasi span t, h => by
    rw [Expr.code]
    exact balanced_template names span t h
  | names, .unary _ op e, h => by
    rw [Expr.code]
    exact (balanced_expr names e h).unary op.exchange_opcode.1 op.exchange_opcode.2
  | names, .binary _ op l r, ⟨hl, hr⟩ => by
    rw [Expr.code]
    exact (balanced_expr names r hr).binary (balanced_expr names l hl) op.exchange_opcode.1
      op.exchange_opcode.2
  | names, .ifElse _ c t e, ⟨hc, ht, he⟩ => by
    rw [Expr.code]
    exact (balanced_expr names c hc).branch (balanced_expr names t ht) (balanced_expr names e he)
  | _, .lambda parens _ body, _ => by
    rw [Expr.code]
    exact .load [Code.function parens (codes body)] rfl rfl
  | names, .letIn parens bindings body, ⟨hinits, _, _⟩ => by
    rw [Expr.code]
    exact (balanced_inits names parens.span bindings hinits).letIn
  | names, .letrec parens bindings body, ⟨hinits, _, _⟩ => by
    rw [Expr.code]
    exact (balanced_inits _ parens.span bindings hinits).letrec
  | names, .sequence parens forms, ⟨hforms, h⟩ => by
    rw [Expr.code]
    exact balanced_sequence names parens.span forms hforms h
  | names, .app parens f args, ⟨hf, hargs⟩ => by
    rw [Expr.code]
    exact (balanced_args names parens.span args hargs).call (balanced_expr names f hf)
theorem balanced_args : ∀ (names : List (List String)) (span : Span) (es : List Expr),
    ScopedAll .anywhere names es → Balanced (Code.list span (codes es))
  | _, span, [], _ => by
    rw [codes]
    exact .nil span
  | names, span, e :: es, ⟨h, hs⟩ => by
    rw [codes]
    exact (balanced_expr names e h).cons (balanced_args names span es hs)
theorem balanced_inits : ∀ (names : List (List String)) (span : Span) (bindings : List (String × Expr)),
    ScopedInits .anywhere names bindings → Balanced (Code.list span (initCodes bindings))
  | _, span, [], _ => by
    rw [initCodes]
    exact .nil span
  | names, span, (_, e) :: rest, ⟨h, hs⟩ => by
    rw [initCodes]
    exact (balanced_expr names e h).cons (balanced_inits names span rest hs)
theorem balanced_sequence : ∀ (names : List (List String)) (span : Span) (es : List Expr), es ≠ [] →
    ScopedAll .anywhere names es → Balanced (Code.sequence span (codes es))
  | _, _, [], hne, _ => absurd rfl hne
  | names, _, [e], _, ⟨h, _⟩ => by
    rw [codes, codes, Code.sequence]
    exact balanced_expr names e h
  | names, span, e :: next :: rest, _, ⟨h, hs⟩ => by
    rw [codes, codes, Code.sequence, ← codes]
    · exact (balanced_expr names e h).next
        (balanced_sequence names span (next :: rest) (List.cons_ne_nil _ _) hs)
    · exact List.cons_ne_nil _ _
theorem balanced_template : ∀ (names : List (List String)) (span : Span) (t : Template),
    t.Scoped .anywhere names → Balanced (t.code span)
  | names, _, .hole e, h => by
    rw [Template.code]
    exact balanced_expr names e h
  | _, _, .datum d, _ => by
    rw [Template.code]
    exact .load [d.value] rfl rfl
  | names, _, .list parens items, h => by
    rw [Template.code]
    cases Template.values? items with
    | some vs => exact .load [.list vs] rfl rfl
    | none => exact balanced_templates names parens.span items h
theorem balanced_templates : ∀ (names : List (List String)) (span : Span) (ts : List Template),
    ScopedTemplates .anywhere names ts → Balanced (Code.list span (templateCodes span ts))
  | _, span, [], _ => by
    rw [templateCodes]
    exact .nil span
  | names, span, t :: ts, ⟨h, hs⟩ => by
    rw [templateCodes]
    exact (balanced_template names span t h).cons (balanced_templates names span ts hs)
end

/-- Code that the reader gives for an expression in a scope. The reader goes only so deep, and each frame of
the scope has used up one level. -/
def Scope.Emits (scope : Scope) (code : Code) : Prop :=
  ∃ level f e f', scope.locals.length + level < maxNesting ∧
    readForm (readers level) scope f = .ok (e, f') ∧ code = e.code

theorem Scope.Emits.balanced {scope : Scope} {code : Code} (h : scope.Emits code) : Balanced code := by
  obtain ⟨level, f, e, f', hlevel, hread, rfl⟩ := h
  exact balanced_expr scope.frames e ((readForm_eq_ok (readers_sound level) hread).2 hlevel)

/-- A run comes to what follows a piece of code, over the dump that the code started with, for the first
time. -/
structure Machine.ComesTo (m : Machine) (n : Nat) (C : Code) (D : List DumpEntry) (last : Machine) :
    Prop where
  reached : m.after n = some last
  code : last.code = C
  dump : last.dump = D
  first : ∀ k < n, ∀ between, m.after k = some between → ¬ (between.code = C ∧ between.dump = D)

theorem Balanced.registers_eq {code : Code} (h : Balanced code) {S : Stack} {E : Environment} {C : Code}
    {D : List DumpEntry} {n : Nat} {m last : Machine} (hm : m.registers = ⟨S, E, code ++ C, D⟩)
    (hlast : m.ComesTo n C D last) : ∃ v, last.registers = ⟨v :: S, E, C, D⟩ := by
  refine (h (n + 1) S E C D m hm).post_of_first (fun m => m.code = C ∧ m.dump = D) ?_ ?_
    (Nat.lt_succ_self n) hlast.reached ⟨hlast.code, hlast.dump⟩ hlast.first
  · rintro m ⟨v, hregisters⟩
    exact ⟨congrArg Registers.code hregisters, congrArg Registers.dump hregisters⟩
  -- inside there is more on the dump or in the code, so this is not yet what follows
  · rintro m (hdump | ⟨-, hcode⟩) ⟨rfl, rfl⟩
    · exact Nat.lt_irrefl _ hdump
    · exact Nat.lt_irrefl _ hcode

/-! ## Programs -/

/-- A machine that has come to the end of a program: only the value of a last form that is an expression is
left. -/
structure Machine.Clean (m : Machine) (env : Environment) (last : TopForm) : Prop where
  dump : m.dump = []
  env : m.env = env
  value : last.defined? = none → ∃ v, m.stack = [v]
  definition : last.defined? ≠ none → m.stack = []

/-- A program that is read has a last form. -/
theorem Session.exists_last {s : Session} {source : String} {p : Program} (h : s.program source = .ok p) :
    ∃ last, p.getLast? = some last := by
  have hnonempty : p ≠ [] := by
    rintro rfl
    exact (Program.wellFormed_of_ofRun h).nonempty rfl
  exact Option.isSome_iff_exists.mp (List.getLast?_isSome.mpr hnonempty)

/-- A program that halts leaves a clean machine. -/
theorem Loaded.clean {site : Site} {g : FrameId} {names : List String} {p : Program} {h : Heap}
    {last : TopForm} (hp : Loaded site g names p h) (hlast : p.getLast? = some last) {n : Nat}
    {m : Machine} (hn : (Machine.start p.code [g] h.image).after n = some m) (hhalt : m.isHalted) :
    m.Clean [g] last := by
  -- a machine that is halted has not failed, so evaluation gives a result, and the machine is left with it
  obtain ⟨o, h', heval, rfl⟩ | ⟨e, -, hnext⟩ := hp.eval_of_stuck hn (Machine.stuck_of_isHalted hhalt)
  · have hnone := Program.isNone_of_eval hlast heval
    refine ⟨rfl, rfl, fun hdefined => ?_, fun hdefined => ?_⟩
    · rw [hdefined] at hnone
      cases o with
      | none => cases hnone
      | some o => exact ⟨o.image, rfl⟩
    · cases o with
      | none => rfl
      | some o =>
        rw [Option.isSome_iff_ne_none.mpr hdefined] at hnone
        cases hnone
  · rw [Machine.next_of_isHalted hhalt] at hnext
    cases hnext

/-- **Compiled code is balanced.** A program that halts leaves a clean machine, in a session with a history
and over a copy of its global frame. The code of an expression that comes to what follows it has put one
value on the stack, and has left the environment and the dump as they were. -/
theorem compiled_code_is_balanced :
    (∀ s : Session, s.Reachable → ∀ (source : String) (compiled : Compiled),
      s.compile source = .ok compiled →
      ∃ p last, s.program source = .ok p ∧ p.getLast? = some last ∧
        (∀ n m, (Machine.start compiled.code s.env s.store).after n = some m → m.isHalted →
          m.Clean s.env last) ∧
        ∀ copy n m, s.machine source = .ok copy → copy.after n = some m → m.isHalted →
          m.Clean copy.env last) ∧
    ∀ (scope : Scope) (code : Code), scope.Emits code →
      ∀ (S : Stack) (E : Environment) (C : Code) (D : List DumpEntry) (m last : Machine) (n : Nat),
        m.registers = ⟨S, E, code ++ C, D⟩ → m.ComesTo n C D last →
        ∃ v, last.stack = v :: S ∧ last.env = E := by
  constructor
  · intro s hs source compiled hcompile
    obtain ⟨p, hp, hcode, -⟩ := Session.compile_eq_ok hcompile
    obtain ⟨last, hlast⟩ := Session.exists_last hp
    obtain ⟨h, hh⟩ := hs.kept.heap
    have hscoped := Session.scoped_of_program hp
    refine ⟨p, last, hp, hlast, ?_, ?_⟩
    · intro n m hn hhalt
      rw [hcode, ← hh.image] at hn
      exact (hh.loaded hscoped).clean hlast hn hhalt
    · intro copy n m hcopy hn hhalt
      rw [Session.machine_eq, hp] at hcopy
      cases hcopy
      obtain ⟨hloaded, hload⟩ := hh.load hscoped
      rw [hload] at hn ⊢
      exact hloaded.clean hlast hn hhalt
  · intro scope code hemits S E C D m last n hm hlast
    obtain ⟨v, hregisters⟩ := hemits.balanced.registers_eq hm hlast
    exact ⟨v, congrArg Registers.stack hregisters, congrArg Registers.env hregisters⟩

/-- The tokens of `(if 1 2 3)`. -/
def branchFeed : Feed :=
  { tokens := [⟨.leftParen, ⟨0, 1⟩⟩, ⟨.keyword .if_, ⟨1, 3⟩⟩, ⟨.number 1, ⟨4, 5⟩⟩, ⟨.number 2, ⟨6, 7⟩⟩,
      ⟨.number 3, ⟨8, 9⟩⟩, ⟨.rightParen, ⟨9, 10⟩⟩]
    ending := .eof 10 }

/-- A program that halts after a definition and a branch, and the code of a branch in front of a `POP`. -/
theorem branches_are_balanced :
    (∃ (s : Session) (compiled : Compiled) (last : TopForm) (m : Machine),
      s.compile "(define k 2) (if k k 1)" = .ok compiled ∧
      (Machine.start compiled.code s.env s.store).after 6 = some m ∧ m.Clean s.env last) ∧
    ∃ (code : Code) (v : Value) (last : Machine), Scope.Emits {} code ∧
      Machine.after 4 ⟨⟨[.nil], [0], code ++ [.op .pop none], []⟩, .empty, 0⟩ = some last ∧
      last.stack = [v, .nil] ∧ last.env = [0] := by
  constructor
  · let s := Session.after {} []
    have hrun : (s.compile "(define k 2) (if k k 1)").toOption.any fun compiled =>
        ((Machine.start compiled.code s.env s.store).after 6).any Machine.isHalted := by decide +kernel
    obtain ⟨compiled, hcompile, hhalts⟩ := Except.exists_of_any hrun
    obtain ⟨m, hm, hhalt⟩ := (Option.any_eq_true _ _).mp hhalts
    obtain ⟨p, last, -, -, hclean, -⟩ := compiled_code_is_balanced.1 s ⟨{}, [], rfl⟩ _ compiled hcompile
    exact ⟨s, compiled, last, m, hcompile, hm, hclean 6 m hm hhalt⟩
  · have hemits : ∃ code, Scope.Emits {} code ∧ ∃ last, Machine.ComesTo
        ⟨⟨[.nil], [0], code ++ [.op .pop none], []⟩, .empty, 0⟩ 4 [.op .pop none] [] last := by
      refine ⟨_, ⟨2, branchFeed, _, _, by decide, rfl, rfl⟩, _, rfl, rfl, rfl, ?_⟩
      rintro k hk between hbetween ⟨hcode, hdump⟩
      obtain rfl | rfl | rfl | rfl : k = 0 ∨ k = 1 ∨ k = 2 ∨ k = 3 := by omega
      all_goals cases hbetween
      · exact absurd (congrArg List.length hcode) (by decide)
      · exact absurd (congrArg List.length hcode) (by decide)
      · exact absurd (congrArg List.length hdump) (by decide)
      · exact absurd (congrArg List.length hdump) (by decide)
    obtain ⟨code, hemits, last, hlast⟩ := hemits
    obtain ⟨v, hstack, henv⟩ := compiled_code_is_balanced.2 _ code hemits _ _ _ _ _ last 4 rfl hlast
    exact ⟨code, v, last, hemits, hlast.reached, hstack, henv⟩

end LispMachine
