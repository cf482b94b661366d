import LispMachine.Proofs.Nesting
import LispMachine.Proofs.Programs
import LispMachine.Proofs.Quotation

/-!
# Quasiquotation substitutes

The code of a template evaluates the holes from the last to the first, once each, and leaves what quoting
the template would give, filled with their values (`Template.code_builds`). It fails if a list with a
hole in it would be nested too deep, which `CONS` finds out when it has the values.

All of this holds of the code and the machine alone: of the holes no more is used than that their code
leaves values, as the code of an expression does that means something (`Expr.evaluates_of_eval`). The
induction is on the template, and the invariant is `Code.Builds`: code that leaves its value or fails,
and fails for depth only if the value is one that it builds.

A hole is what the template reader takes for one. Behind a quotation mark it hands over to the reader of
data, to which a comma is a mark like any other: what stands behind it is not evaluated
(`comma_behind_quote_is_data`). So the theorem asks that there is no comma in the data of a template.
-/

namespace LispMachine

/-! ## The parts of a template -/

mutual
/-- The holes of a template, from left to right. -/
def Template.holes : Template → List Expr
  | .hole e => [e]
  | .datum _ => []
  | .list _ items => holesOfAll items
/-- The holes of templates. -/
def holesOfAll : List Template → List Expr
  | [] => []
  | t :: ts => t.holes ++ holesOfAll ts
end

mutual
/-- The data that the reader has taken for parts of a template, from left to right. -/
def Template.literals : Template → List Datum
  | .hole _ => []
  | .datum d => [d]
  | .list _ items => literalsOfAll items
/-- The data in templates. -/
def literalsOfAll : List Template → List Datum
  | [] => []
  | t :: ts => t.literals ++ literalsOfAll ts
end

/-- A list with a hole in it, which is built item by item. -/
def Template.Built : Template → Prop
  | .list _ items => holesOfAll items ≠ []
  | _ => False

mutual
/-- A template has a value before it is evaluated if it has no holes, and that is what it is when it is
quoted. -/
theorem Template.value?_eq_ite : ∀ t : Template,
    t.value? = if t.holes.isEmpty then some t.quoted.value else none
  | .hole _ => rfl
  | .datum _ => rfl
  | .list _ items => by
    rw [Template.value?, Template.values?_eq_ite items, Template.holes]
    cases (holesOfAll items).isEmpty with
    | true => rfl
    | false => rfl
theorem Template.values?_eq_ite : ∀ ts : List Template,
    Template.values? ts = if (holesOfAll ts).isEmpty then some (Datum.values (quotedItems ts)) else none
  | [] => rfl
  | t :: ts => by
    rw [Template.values?, Template.value?_eq_ite t, Template.values?_eq_ite ts, holesOfAll]
    cases t.holes with
    | nil =>
      rw [List.nil_append]
      cases (holesOfAll ts).isEmpty <;> rfl
    | cons e es => rfl
end

/-- A part without holes is loaded as the constant that quoting it gives. -/
theorem Template.code_of_holes {t : Template} (h : t.holes = []) (span : Span) :
    t.code span = Code.constant span t.quoted.value := by
  have hvalue := t.value?_eq_ite
  rw [h] at hvalue
  cases t with
  | hole e => cases h
  | datum d => rfl
  | list parens items =>
    obtain ⟨vs, hvs, hlist⟩ := Option.map_eq_some_iff.mp hvalue
    rw [Template.code, hvs, ← hlist]

mutual
/-- Where there are neither holes nor commas in data, there are no commas. -/
theorem Template.not_mem_kinds : ∀ t : Template, t.holes = [] → (∀ d ∈ t.literals, .comma ∉ d.kinds) →
    .comma ∉ t.kinds
  | .hole _, h, _ => nomatch h
  | .datum d, _, hdata => hdata d List.mem_cons_self
  | .list _ items, h, hdata => by
    have hitems := not_mem_templateKinds items h hdata
    rw [Template.kinds, inParens]
    simp [hitems]
theorem not_mem_templateKinds : ∀ ts : List Template, holesOfAll ts = [] →
    (∀ d ∈ literalsOfAll ts, .comma ∉ d.kinds) → .comma ∉ templateKinds ts
  | [], _, _ => List.not_mem_nil
  | t :: ts, h, hdata => by
    obtain ⟨ht, hts⟩ := List.append_eq_nil_iff.mp h
    rw [literalsOfAll, List.forall_mem_append] at hdata
    rw [templateKinds, List.mem_append, not_or]
    exact ⟨Template.not_mem_kinds t ht hdata.1, not_mem_templateKinds ts hts hdata.2⟩
end

/-- What a template without holes is filled with makes no difference. -/
theorem Template.fill_of_holes {t : Template} (h : t.holes = [])
    (hdata : ∀ d ∈ t.literals, .comma ∉ d.kinds) (vs : List Value) :
    t.quoted.fill vs = (t.quoted.value, vs) := by
  refine t.quoted.fill_of_not_mem ?_ vs
  rw [Template.kinds_quoted]
  exact t.not_mem_kinds h hdata

/-! ## Evaluation by the machine -/

/-- A machine comes to these registers and this store. -/
def Machine.GetsTo (m : Machine) (r : Registers) (w : Store) : Prop :=
  ∃ n steps, m.after n = some ⟨r, w, steps⟩

/-- A machine comes to an instruction that fails. -/
def Machine.FailsWith (m : Machine) (e : RuntimeError) : Prop :=
  ∃ n last, m.after n = some last ∧ last.next = .error e

/-- What code does from any stack, in front of any code and over any dump: it leaves a value on the stack,
and a store, or fails. -/
def Code.Evaluates (code : Code) (env : Environment) (w : Store) : Except RuntimeError (Value × Store) → Prop
  | .ok (v, w') => ∀ S C D steps,
    Machine.GetsTo ⟨⟨S, env, code ++ C, D⟩, w, steps⟩ ⟨v :: S, env, C, D⟩ w'
  | .error e => ∀ S C D steps, Machine.FailsWith ⟨⟨S, env, code ++ C, D⟩, w, steps⟩ e

/-- Codes are evaluated, the last one first, and leave values. -/
inductive AllEvaluate (env : Environment) : List Code → Store → List Value → Store → Prop
  | nil {w : Store} : AllEvaluate env [] w [] w
  | cons {code : Code} {codes : List Code} {w w₁ w₂ : Store} {v : Value} {vs : List Value}
      (htail : AllEvaluate env codes w vs w₁) (hhead : code.Evaluates env w₁ (.ok (v, w₂))) :
    AllEvaluate env (code :: codes) w (v :: vs) w₂

variable {m : Machine} {r r' : Registers} {w w₁ w₂ w' : Store} {env : Environment} {e : RuntimeError}
  {v : Value} {vs : List Value}

theorem Machine.GetsTo.trans (h : m.GetsTo r w) (h' : ∀ steps, GetsTo ⟨r, w, steps⟩ r' w') :
    m.GetsTo r' w' := by
  obtain ⟨n, steps, hn⟩ := h
  obtain ⟨n', steps', hn'⟩ := h' steps
  exact ⟨n + n', steps', (after_add hn n').trans hn'⟩

theorem Machine.GetsTo.failsWith (h : m.GetsTo r w) (h' : ∀ steps, FailsWith ⟨r, w, steps⟩ e) :
    m.FailsWith e := by
  obtain ⟨n, steps, hn⟩ := h
  obtain ⟨n', last, hn', herror⟩ := h' steps
  exact ⟨n + n', last, (after_add hn n').trans hn', herror⟩

/-- An instruction that leaves the store alone. -/
theorem Machine.GetsTo.of_perform {op : Opcode} {origin : Option Span} {S : Stack} {C : Code}
    {D : List DumpEntry} {steps : Nat} (h : perform op w ⟨S, env, C, D⟩ = .ok (r, .keep)) :
    GetsTo ⟨⟨S, env, .op op origin :: C, D⟩, w, steps⟩ r w := by
  have hnext : next ⟨⟨S, env, .op op origin :: C, D⟩, w, steps⟩ = .ok (some ⟨op, origin, r, .keep⟩) := by
    rw [next]
    simp only [h]
  exact ⟨1, _, after_succ (step_eq_some_iff.mpr ⟨_, hnext, rfl⟩) 0⟩

namespace AllEvaluate

/-- What comes last in a list of codes is evaluated before the rest. -/
theorem of_append {codes more : List Code} (h : AllEvaluate env (codes ++ more) w vs w') :
    ∃ vs₁ vs₂ w₁, vs = vs₁ ++ vs₂ ∧ AllEvaluate env more w vs₂ w₁ ∧ AllEvaluate env codes w₁ vs₁ w' := by
  induction codes generalizing vs w' with
  | nil => exact ⟨[], vs, w', rfl, h, .nil⟩
  | cons code codes ih =>
    cases h with
    | cons htail hhead =>
      obtain ⟨vs₁, vs₂, w₁, rfl, hmore, hcodes⟩ := ih htail
      exact ⟨_ :: vs₁, vs₂, w₁, rfl, hmore, .cons hcodes hhead⟩

end AllEvaluate

namespace Code.Evaluates
variable {span : Span} {code : Code} {codes : List Code}

theorem constant (span : Span) (v : Value) (env : Environment) (w : Store) :
    (Code.constant span v).Evaluates env w (.ok (v, w)) :=
  fun _ _ _ _ => .of_perform rfl

theorem nil (span : Span) (env : Environment) (w : Store) :
    (Code.list span []).Evaluates env w (.ok (.list [], w)) :=
  fun _ _ _ _ => .of_perform rfl

/-- Code leaves no more than one value. -/
theorem unique {v' : Value} (h : code.Evaluates env w (.ok (v, w₁)))
    (h' : code.Evaluates env w (.ok (v', w₂))) : v = v' ∧ w₁ = w₂ := by
  -- run alone, with nothing behind it, the code halts with its value as the only one on the stack
  obtain ⟨n, steps, hn⟩ := h [] [] [] 0
  obtain ⟨n', steps', hn'⟩ := h' [] [] [] 0
  obtain ⟨-, heq⟩ := Machine.eq_of_stuck hn (Machine.stuck_of_isHalted rfl) hn'
    (Machine.stuck_of_isHalted rfl)
  cases heq
  exact ⟨rfl, rfl⟩

/-- Code that fails does so whatever stands behind it. -/
theorem append_of_error (h : code.Evaluates env w (.error e)) (more : Code) :
    Code.Evaluates (code ++ more) env w (.error e) := by
  intro S C D steps
  rw [List.append_assoc]
  exact h S (more ++ C) D steps

/-- Code that fails does so behind code that leaves a value. -/
theorem append_error {more : Code} (h : code.Evaluates env w (.ok (v, w₁)))
    (hmore : ∀ S C D steps, Machine.FailsWith ⟨⟨v :: S, env, more ++ C, D⟩, w₁, steps⟩ e) :
    Code.Evaluates (code ++ more) env w (.error e) := by
  intro S C D steps
  rw [List.append_assoc]
  exact (h S (more ++ C) D steps).failsWith fun steps' => hmore S C D steps'

/-- The head of a list is evaluated behind its tail, and is put before it unless it is too deep. -/
theorem cons (htail : (Code.list span codes).Evaluates env w (.ok (.list vs, w₁)))
    (hhead : code.Evaluates env w₁ (.ok (v, w₂))) :
    (v.depth < maxDataDepth →
      (Code.list span (code :: codes)).Evaluates env w (.ok (.list (v :: vs), w₂))) ∧
    (maxDataDepth ≤ v.depth →
      (Code.list span (code :: codes)).Evaluates env w (.error (.dataTooDeep .cons maxDataDepth))) := by
  rw [Code.list_cons]
  refine ⟨fun hlt S C D steps => ?_, fun hle => htail.append_error fun S C D steps => ?_⟩
  · rw [List.append_assoc, List.append_assoc]
    refine (htail S _ D steps).trans fun steps => (hhead _ _ D steps).trans fun steps => .of_perform ?_
    exact (perform_cons_list S env C D w₂ v vs).trans (if_neg (Nat.not_le_of_lt hlt))
  · rw [List.append_assoc]
    refine (hhead _ _ D steps).failsWith fun steps => ⟨0, _, rfl, ?_⟩
    rw [Machine.next]
    simp only [List.singleton_append, perform_cons_list, if_pos hle]

end Code.Evaluates

/-- The code of an expression leaves the image of the object that the expression evaluates to. -/
theorem Expr.evaluates_of_eval {setting : Setting} {chain : Chain} {h h' : Heap} {fuel : Nat} {e : Expr}
    {o : Object} (hscoped : e.Scoped setting.site chain.names) (hfit : Fits setting chain h)
    (heval : e.eval (applyWith fuel) chain h = .ok (o, h')) :
    e.code.Evaluates chain.frames h.image (.ok (o.image, h'.image)) := by
  intro S C D steps
  have hsim := computes_expr (applies_applyWith fuel) chain e hscoped S C D [] h hfit
  unfold Simulates at hsim
  rw [heval] at hsim
  obtain ⟨⟨n, hsteps⟩, -⟩ := hsim
  exact ⟨n, _, hsteps.after steps⟩

/-- Code leaves a value, unless it builds that value and it is nested too deep: then it fails. -/
structure Code.Builds (code : Code) (env : Environment) (w : Store) (built : Prop) (v : Value) (w' : Store) :
    Prop where
  ok : ¬ (built ∧ maxDataDepth < v.depth) → code.Evaluates env w (.ok (v, w'))
  error : built ∧ maxDataDepth < v.depth →
    code.Evaluates env w (.error (.dataTooDeep .cons maxDataDepth))

namespace Code.Builds
variable {span : Span} {code : Code} {codes : List Code} {built : Prop}

theorem of_evaluates (h : code.Evaluates env w (.ok (v, w'))) : code.Builds env w False v w' :=
  ⟨fun _ => h, fun hbuilt => hbuilt.1.elim⟩

theorem nil (span : Span) (env : Environment) (w : Store) :
    (Code.list span []).Builds env w True (.list []) w where
  ok _ := .nil span env w
  error h := by
    rw [Value.depth_eq_nesting] at h
    exact absurd h.2 (by decide)

/-- A list is built if its tail and its head are. It is too deep if one of them is, or if its head may not
be put into a list. -/
theorem cons (htail : (Code.list span codes).Builds env w True (.list vs) w₁)
    (hhead : code.Builds env w₁ built v w₂) :
    (Code.list span (code :: codes)).Builds env w True (.list (v :: vs)) w₂ where
  ok h := by
    rw [Value.depth_cons, true_and, Nat.not_lt, Nat.max_le] at h
    -- a head that is too deep would make the list too deep, so neither part may fail
    have hv : ¬ (built ∧ maxDataDepth < v.depth) := fun hdeep => by omega
    exact (Evaluates.cons (htail.ok fun hdeep => by omega) (hhead.ok hv)).1 h.1
  error h := by
    rw [Value.depth_cons] at h
    -- the tail is evaluated first, so its failure comes before one of the head or of CONS
    by_cases hdeep : maxDataDepth < (Value.list vs).depth
    · rw [Code.list_cons]
      exact (htail.error ⟨trivial, hdeep⟩).append_of_error _
    · have hlist := htail.ok fun hdeep' => hdeep hdeep'.2
      by_cases hbuilt : built ∧ maxDataDepth < v.depth
      · rw [Code.list_cons]
        exact hlist.append_error fun S => ((hhead.error hbuilt).append_of_error _) (.list vs :: S)
      · exact (Evaluates.cons hlist (hhead.ok hbuilt)).2 (by omega)

end Code.Builds

/-! ## Templates -/

mutual
/-- **The code of a template builds what quoting it gives, filled with the values of its holes.** -/
theorem Template.code_builds : ∀ (t : Template) (span : Span) {w w' : Store} {vs : List Value},
    (∀ d ∈ t.literals, .comma ∉ d.kinds) → AllEvaluate env (t.holes.map Expr.code) w vs w' →
    ∃ v, (∀ more, t.quoted.fill (vs ++ more) = (v, more)) ∧ (t.code span).Builds env w t.Built v w'
  | .hole e, span, _, _, _, _, hall => by
    cases hall with
    | @cons _ _ _ _ _ v _ htail hhead =>
      cases htail
      exact ⟨v, fun more => by rw [Template.quoted, List.singleton_append, Datum.fill],
        .of_evaluates hhead⟩
  | .datum d, span, w, _, _, hdata, hall => by
    cases hall
    exact ⟨d.value, d.fill_of_not_mem (hdata d List.mem_cons_self),
      .of_evaluates (.constant span d.value env w)⟩
  | .list parens items, span, w, w', vs, hdata, hall => by
    -- without holes the whole list is one constant; otherwise it is built, even the items without holes
    by_cases hholes : holesOfAll items = []
    · rw [Template.holes, hholes] at hall
      cases hall
      have hnone : Template.holes (.list parens items) = [] := hholes
      have hfill := Template.fill_of_holes hnone hdata
      refine ⟨_, hfill, ?_, fun hbuilt => absurd hholes hbuilt.1⟩
      rw [Template.code_of_holes hnone]
      exact fun _ => .constant span _ env w
    · obtain ⟨filled, hfilled, hbuilds⟩ := templateCodes_build items parens.span hdata hall
      have hnone : Template.values? items = none := by
        rw [Template.values?_eq_ite, if_neg (fun hnil => hholes (List.isEmpty_iff.mp hnil))]
      refine ⟨.list filled, fun more => ?_, ?_⟩
      · rw [Template.quoted, Datum.fill, hfilled]
      · rw [Template.code, hnone]
        exact ⟨fun h => hbuilds.ok fun hdeep => h ⟨hholes, hdeep.2⟩,
          fun h => hbuilds.error ⟨trivial, h.2⟩⟩
theorem templateCodes_build : ∀ (ts : List Template) (span : Span) {w w' : Store} {vs : List Value},
    (∀ d ∈ literalsOfAll ts, .comma ∉ d.kinds) →
    AllEvaluate env ((holesOfAll ts).map Expr.code) w vs w' →
    ∃ filled, (∀ more, fillAll (quotedItems ts) (vs ++ more) = (filled, more)) ∧
      (Code.list span (templateCodes span ts)).Builds env w True (.list filled) w'
  | [], span, w, _, _, _, hall => by
    cases hall
    exact ⟨[], fun more => by rw [quotedItems, fillAll, List.nil_append], .nil span env w⟩
  | t :: ts, span, _, _, _, hdata, hall => by
    rw [literalsOfAll, List.forall_mem_append] at hdata
    rw [holesOfAll, List.map_append] at hall
    obtain ⟨vs₁, vs₂, w₁, rfl, hts, ht⟩ := hall.of_append
    obtain ⟨filled, hfilled, htail⟩ := templateCodes_build ts span hdata.2 hts
    obtain ⟨v, hv, hhead⟩ := Template.code_builds t span hdata.1 ht
    refine ⟨v :: filled, fun more => ?_, htail.cons hhead⟩
    rw [quotedItems, fillAll, List.append_assoc, hv]
    simp only
    rw [hfilled]
end

/-- **Quasiquotation means substitution.** Take a template that has been read and has no comma in its
data. The reader of data, if it may go deep enough, reads the template as it is quoted in its place, and
never anything else. If its holes evaluate to values, from the last to the first, then its code builds that
datum with the values in their places, or finds that a list with a hole in it is nested too deep. And a part
without holes is what quoting it gives. -/
theorem quasiquotation_substitutes (level blame : Nat) (scope : Scope) (f f' : Feed) (t : Template)
    (hread : (readers level).template blame scope f = .ok (t, f'))
    (hdata : ∀ d ∈ t.literals, .comma ∉ d.kinds) :
    (∀ level' blame', t.quoted.nesting ≤ level' →
      (readers level').datum blame' f = .ok (t.quoted, f')) ∧
    (∀ level' blame' d f'', (readers level').datum blame' f = .ok (d, f'') →
      d = t.quoted ∧ f'' = f') ∧
    (∀ span env w w' vs, AllEvaluate env (t.holes.map Expr.code) w vs w' →
      ∃ v, t.quoted.fill vs = (v, []) ∧ (Expr.quasi span t).code.Builds env w t.Built v w') ∧
    (∀ (part : Template) span, part.holes = [] →
      part.code span = Code.constant span part.quoted.value) := by
  obtain ⟨htakes, -⟩ := (readers_sound level).template hread
  have honly : ∀ level' blame' d f'', (readers level').datum blame' f = .ok (d, f'') →
      d = t.quoted ∧ f'' = f' :=
    fun level' _ _ _ hdatum => Template.eq_quoted htakes ((readers_sound level').datum hdatum)
  refine ⟨?_, honly, ?_, fun part span hnone => part.code_of_holes hnone span⟩
  · intro level' blame' hdeep
    obtain ⟨used, htokens, hkinds⟩ := htakes.tokens
    rw [← Template.kinds_quoted] at hkinds
    obtain ⟨d, f'', hdatum, -⟩ :=
      (readers_complete level').datum blame' hdeep f used f'.tokens htokens hkinds
    obtain ⟨rfl, rfl⟩ := honly level' blame' d f'' hdatum
    exact hdatum
  · intro span env w w' vs hall
    obtain ⟨v, hfill, hbuilds⟩ := t.code_builds span hdata hall
    rw [← List.append_nil vs]
    exact ⟨v, hfill [], hbuilds⟩

/-! ## Two templates -/

/-- The expression `(+ 1 2)`. -/
def onePlusTwo : Expr :=
  .binary ⟨⟨5, 6⟩, ⟨11, 12⟩⟩ (.operator .add) (.literal ⟨8, 9⟩ (.number 1)) (.literal ⟨10, 11⟩ (.number 2))

theorem onePlusTwo_evaluates (env : Environment) (w : Store) :
    onePlusTwo.code.Evaluates env w (.ok (.number 3, w)) :=
  fun _ _ _ steps => ⟨3, steps + 3, rfl⟩

/-- The tokens of the template `(a ,(+ 1 2) 'b)`. -/
def holeBesideQuote : Feed where
  tokens := [⟨.leftParen, ⟨1, 2⟩⟩, ⟨.identifier "a", ⟨2, 3⟩⟩, ⟨.comma, ⟨4, 5⟩⟩, ⟨.leftParen, ⟨5, 6⟩⟩,
    ⟨.operator .add, ⟨6, 7⟩⟩, ⟨.number 1, ⟨8, 9⟩⟩, ⟨.number 2, ⟨10, 11⟩⟩, ⟨.rightParen, ⟨11, 12⟩⟩,
    ⟨.quote, ⟨13, 14⟩⟩, ⟨.identifier "b", ⟨14, 15⟩⟩, ⟨.rightParen, ⟨15, 16⟩⟩]
  ending := .eof 16

theorem hole_beside_quote_is_filled :
    ∃ t f', (readers 5).template 1 {} holeBesideQuote = .ok (t, f') ∧
      (∀ d ∈ t.literals, .comma ∉ d.kinds) ∧
      ∀ span env w, AllEvaluate env (t.holes.map Expr.code) w [.number 3] w ∧
        (Expr.quasi span t).code.Evaluates env w
          (.ok (.list [.symbol "a", .number 3, .list [.symbol "quote", .symbol "b"]], w)) := by
  let t : Template := .list ⟨⟨1, 2⟩, ⟨15, 16⟩⟩
    [.datum (.word (.identifier "a")), .hole onePlusTwo,
      .datum (.marked .quote (.word (.identifier "b")))]
  have hread : (readers 5).template 1 {} holeBesideQuote =
      .ok (t, { tokens := [], ending := .eof 16, position := 16 }) := rfl
  have hdata : ∀ d ∈ t.literals, .comma ∉ d.kinds := by decide
  obtain ⟨-, -, hbuilds, -⟩ := quasiquotation_substitutes _ _ _ _ _ _ hread hdata
  refine ⟨t, _, hread, hdata, fun span env w => ?_⟩
  have hall : AllEvaluate env (t.holes.map Expr.code) w [.number 3] w :=
    .cons .nil (onePlusTwo_evaluates env w)
  obtain ⟨v, hfill, hcode⟩ := hbuilds span env w w [.number 3] hall
  obtain rfl : Value.list [.symbol "a", .number 3, .list [.symbol "quote", .symbol "b"]] = v :=
    congrArg Prod.fst hfill
  refine ⟨hall, hcode.ok ?_⟩
  rintro ⟨-, hdeep⟩
  rw [Value.depth_eq_nesting] at hdeep
  exact absurd hdeep (by decide)

/-- The tokens of the template `(a ',(+ 1 2))`. -/
def holeBehindQuote : Feed where
  tokens := [⟨.leftParen, ⟨1, 2⟩⟩, ⟨.identifier "a", ⟨2, 3⟩⟩, ⟨.quote, ⟨3, 4⟩⟩, ⟨.comma, ⟨4, 5⟩⟩,
    ⟨.leftParen, ⟨5, 6⟩⟩, ⟨.operator .add, ⟨6, 7⟩⟩, ⟨.number 1, ⟨8, 9⟩⟩, ⟨.number 2, ⟨10, 11⟩⟩,
    ⟨.rightParen, ⟨11, 12⟩⟩, ⟨.rightParen, ⟨12, 13⟩⟩]
  ending := .eof 13

/-- A comma behind a quotation mark is data. The expression behind it has a value, and the template does not
evaluate to the datum that is filled with it. -/
theorem comma_behind_quote_is_data :
    ∃ t f' filled, (readers 7).template 1 {} holeBehindQuote = .ok (t, f') ∧
      t.quoted = .list [.word (.identifier "a"), .marked .quote (.marked .unquote onePlusTwo.quoted)] ∧
      t.quoted.fill [.number 3] = (filled, []) ∧
      ∀ span env w, onePlusTwo.code.Evaluates env w (.ok (.number 3, w)) ∧
        (Expr.quasi span t).code.Evaluates env w (.ok (t.quoted.value, w)) ∧
        ∀ w', ¬ (Expr.quasi span t).code.Evaluates env w (.ok (filled, w')) := by
  let t : Template := .list ⟨⟨1, 2⟩, ⟨12, 13⟩⟩
    [.datum (.word (.identifier "a")), .datum (.marked .quote (.marked .unquote onePlusTwo.quoted))]
  have hread : (readers 7).template 1 {} holeBehindQuote =
      .ok (t, { tokens := [], ending := .eof 13, position := 13 }) := rfl
  refine ⟨t, _, .list [.symbol "a", .list [.symbol "quote", .number 3]], hread, rfl, rfl,
    fun span env w => ?_⟩
  have hcode : (Expr.quasi span t).code.Evaluates env w (.ok (t.quoted.value, w)) :=
    .constant span t.quoted.value env w
  refine ⟨onePlusTwo_evaluates env w, hcode, fun w' hfilled => ?_⟩
  obtain ⟨heq, -⟩ := hfilled.unique hcode
  cases heq

end LispMachine
