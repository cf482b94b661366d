import LispMachine.Proofs.Acceptance
import LispMachine.Proofs.Continuation
import LispMachine.Proofs.Erasure
import LispMachine.Proofs.History
import LispMachine.Proofs.Seam

/-!
# One program or two

A program that is given in two parts, the second against the names that the first has left, is the same
as the program that is given at once, with a line break between the parts
(`increments_agree_with_whole`). This is so for its code: between the code of the parts there is one
`POP`, if the first part ends in an expression and leaves a value. And it is so for what it evaluates
to and for what it leaves behind, if the whole may take the steps of both parts and one more.

The parts and the whole differ in their spans, so that their codes are compared through the code of the
rules. The runs are compared without origins: the run of the whole is that of the first part with more
code behind it, then the `POP`, and then that of the second part with a later step count.
-/

namespace LispMachine

/-! ## Compilation -/

namespace Listing
variable {p q : Listing} {globals : List String}

/-- Two sources with a line break between them spell both programs. -/
theorem Spells.join {d : Dialect} {first second : String} (hp : p.Spells d first)
    (hq : q.Spells d second) : Spells (p ++ q) d (first ++ "\n" ++ second) := by
  obtain ⟨hpkinds, stop, hpending⟩ := spells_iff.mp hp
  obtain ⟨hqkinds, stop', hqending⟩ := spells_iff.mp hq
  have hjoin : Cursor.ofText (first ++ "\n" ++ second) = (Cursor.ofText first).join second.toList := by
    simp [Cursor.ofText, Cursor.join]
  obtain ⟨offset, htokens, hending⟩ := TokenRun.ofCursor_join second.toList hpending
  have hrest : (⟨offset, second.toList⟩ : Cursor).rest = (Cursor.ofText second).rest := rfl
  obtain ⟨hkinds, hend⟩ := TokenRun.kinds_of_rest hrest hqending
  rw [spells_iff, TokenRun.ofText, hjoin, htokens, hending, List.map_append, hkinds]
  refine ⟨?_, hend⟩
  rw [Listing.kinds, List.flatMap_append]
  exact congr (congrArg _ hpkinds) hqkinds

/-- A program may be followed by one that is well-formed after its definitions. -/
theorem WellFormed.join (hp : p.WellFormed globals)
    (hq : q.WellFormed (globals ++ p.definedNames)) : Listing.WellFormed globals (p ++ q) := by
  refine ⟨?_, formsWellFormed_append.mpr ⟨hp.forms, hq.forms⟩, ?_⟩
  · exact List.append_ne_nil_of_left_ne_nil hp.nonempty q
  · intro form hform
    rcases List.mem_append.mp hform with hmem | hmem
    · exact hp.nesting form hmem
    · exact hq.nesting form hmem

/-- The code of a program is that of its first forms, then what drops the value of the last of them, and
then that of the others. -/
theorem code_join {last : TopTerm} (hlast : p.getLast? = some last) (hq : q ≠ []) :
    code globals (p ++ q) =
      p.code globals ++ last.drop ++ q.code (globals ++ p.definedNames) := by
  induction p generalizing globals with
  | nil => cases hlast
  | cons form rest ih =>
    have hnames : definedNames (form :: rest) = form.defined?.toList ++ definedNames rest := by
      unfold definedNames
      rw [List.filterMap_cons]
      cases form.defined? <;> rfl
    rw [hnames, ← List.append_assoc]
    cases rest with
    | nil =>
      cases hlast
      obtain ⟨next, more, rfl⟩ := List.exists_cons_of_ne_nil hq
      show _ = _ ++ _ ++ code (globals ++ form.defined?.toList ++ []) _
      rw [List.append_nil]
      rfl
    | cons next rest =>
      rw [List.getLast?_cons_cons] at hlast
      show form.code globals ++ form.drop ++ code (globals ++ form.defined?.toList) (next :: rest ++ q) = _
      rw [ih hlast]
      simp only [code, List.append_assoc]

end Listing

/-- The `POP` that drops the value of a form, if it leaves one. -/
theorem TopForm.drop_bare (form : TopForm) :
    form.bare.drop = if form.defined? = none then [.op .pop none] else [] := by
  cases form <;> rfl

section
variable {d : Dialect} {globals : List String} {first second : String} {c₁ c₂ : Compiled}

/-- Two sources of which the second compiles after the first compile at once. -/
theorem compile_join (h₁ : compile d globals first = .ok c₁)
    (h₂ : compile d c₁.globals second = .ok c₂) :
    ∃ c p last, compile d globals (first ++ "\n" ++ second) = .ok c ∧
      Program.ofRun globals (.ofText d first) = .ok p ∧ p.getLast? = some last ∧
      c.code.map Value.erase = c₁.code.map Value.erase ++
        (if last.defined? = none then [.op .pop none] else []) ++ c₂.code.map Value.erase ∧
      c.globals = c₂.globals := by
  obtain ⟨p, hp, rfl⟩ := compile_eq_ok_iff.mp h₁
  obtain ⟨q, hq, rfl⟩ := compile_eq_ok_iff.mp h₂
  obtain ⟨hpspells, hpwf⟩ := Program.spells_of_ofRun hp
  obtain ⟨hqspells, hqwf⟩ := Program.spells_of_ofRun hq
  rw [← Program.definedNames_bare] at hqwf
  obtain ⟨whole, hwhole, hbare⟩ := (hpspells.join hqspells).exists_program (hpwf.join hqwf)
  have hnonempty : p ≠ [] := by
    rintro rfl
    exact hpwf.nonempty rfl
  obtain ⟨last, hlast⟩ := Option.isSome_iff_exists.mp (List.getLast?_isSome.mpr hnonempty)
  refine ⟨_, p, last, compile_eq_ok_iff.mpr ⟨whole, hwhole, rfl⟩, hp, hlast, ?_, ?_⟩
  -- the rules give each part the code that it has in the whole, since they know no spans
  · have hlast' : p.bare.getLast? = some last.bare := by
      rw [Program.bare, List.getLast?_map, hlast]
      rfl
    have hcode : p.code.map Value.erase = p.bare.code globals :=
      Program.code_bare (Program.scoped_of_ofRun hp)
    have hcode' : q.code.map Value.erase = q.bare.code (globals ++ p.bare.definedNames) := by
      rw [Program.definedNames_bare]
      exact Program.code_bare (Program.scoped_of_ofRun hq)
    rw [Program.code_bare (Program.scoped_of_ofRun hwhole), hbare, hcode, hcode', ← last.drop_bare,
      Listing.code_join hlast' hqwf.nonempty]
  · show globals ++ whole.definedNames = globals ++ p.definedNames ++ q.definedNames
    rw [← Program.definedNames_bare whole, hbare, Listing.definedNames, List.filterMap_append,
      ← Program.definedNames_bare p, ← Program.definedNames_bare q, List.append_assoc]
    rfl

end

/-! ## Evaluation -/

/-- A definition evaluates to nothing, and an expression to an object. -/
theorem TopForm.isNone_of_eval {apply : Application} {g : FrameId} {names : List String} {form : TopForm}
    {h h' : Heap} {r : Option Object} (heval : form.eval apply g names h = .ok (r, h')) :
    r.isNone = form.defined?.isSome := by
  obtain ⟨⟨o, h₁⟩, -, hrest⟩ := Except.bind_eq_ok heval
  cases hdefined : form.defined? with
  | none =>
    simp only [hdefined] at hrest
    cases hrest
    rfl
  | some name =>
    simp only [hdefined] at hrest
    cases hrest
    rfl

/-- A program evaluates to nothing if its last form is a definition, and only then. -/
theorem Program.isNone_of_eval {apply : Application} {g : FrameId} {p : Program} {names : List String}
    {last : TopForm} {h h' : Heap} {r : Option Object} (hlast : p.getLast? = some last)
    (heval : p.evalWith apply g names h = .ok (r, h')) : r.isNone = last.defined?.isSome := by
  induction p generalizing names h with
  | nil => cases hlast
  | cons form rest ih =>
    cases rest with
    | nil =>
      cases hlast
      exact TopForm.isNone_of_eval heval
    | cons next rest =>
      obtain ⟨⟨r₁, h₁⟩, -, hrest⟩ := Except.bind_eq_ok heval
      rw [List.getLast?_cons_cons] at hlast
      exact ih hlast hrest

/-- An evaluation that succeeds is a run that halts. -/
theorem Session.after_of_eval {s s' : Session} {source : String} {r : Option Value}
    (h : s.eval source = (.ok r, s')) :
    ∃ p m, s.program source = .ok p ∧
      (Machine.start p.code s.env s.store).after (s.stepsOf source) = some m ∧ m.isHalted ∧ m.top = r ∧
      s' = { s with globals := s.globals ++ p.definedNames, store := m.store } := by
  rw [Session.eval_eq] at h
  unfold Session.stepsOf
  cases hp : s.program source with
  | error fault =>
    rw [hp] at h
    cases h
  | ok p =>
    rw [hp] at h
    simp only [Session.execute] at h
    simp only
    have hends := Machine.runFor_ends s.stepLimit s.stepLimit (Machine.start p.code s.env s.store)
    rw [← Machine.runWithLimit] at hends
    generalize (Machine.start p.code s.env s.store).runWithLimit s.stepLimit = out at h hends ⊢
    cases hends with
    | @halted k m hle hk hhalt =>
      cases h
      have hsteps : m.steps = k := (Machine.steps_of_after hk).trans (Nat.zero_add k)
      rw [hsteps]
      exact ⟨p, m, rfl, hk, hhalt, rfl, rfl⟩
    | failed => cases h
    | spent => cases h

/-- A program that has run to its end leaves its registers empty, but for the value of a last form that is
an expression. -/
theorem Represents.registers_of_halted {h : Heap} {s : Session} {p : Program} {last : TopForm} {k : Nat}
    {m : Machine} (hh : Represents .anywhere h s) (hscoped : p.Scoped .anywhere s.globals)
    (hlast : p.getLast? = some last) (hk : (Machine.start p.code s.env s.store).after k = some m)
    (hhalt : m.isHalted) :
    ∃ v : Option Value, m.erase.registers = ⟨v.toList, s.env, [], []⟩ ∧
      v.isNone = last.defined?.isSome := by
  rw [← hh.image] at hk
  obtain ⟨o, h', heval, rfl⟩ | ⟨e, -, hnext⟩ :=
    (hh.loaded hscoped).eval_of_stuck hk (Machine.stuck_of_isHalted hhalt)
  · refine ⟨o.map fun o => o.image.erase, ?_, ?_⟩
    · cases o <;> rfl
    · rw [← Program.isNone_of_eval hlast heval, Option.isNone_map]
  · rw [Machine.next_of_isHalted hhalt] at hnext
    cases hnext

/-- The `POP` between two programs drops the value of the first, if it has left one. -/
theorem Machine.after_drop (v : Option Value) (env : Environment) (code : Code) (store : Store)
    (steps : Nat) :
    ∃ n, n ≤ 1 ∧
      after n ⟨⟨v.toList, env, (if v.isNone then [] else [.op .pop none]) ++ code, []⟩, store, steps⟩ =
        some ⟨⟨[], env, code, []⟩, store, steps + n⟩ := by
  -- this step is the one that the whole may take in addition
  cases v with
  | none => exact ⟨0, Nat.zero_le 1, rfl⟩
  | some v => exact ⟨1, Nat.le_refl 1, rfl⟩

/-- A run of two programs one behind the other is the run of the first, the `POP` between them, and the
run of the second in the store that the first leaves, but for origins. -/
theorem Machine.after_in_parts {code first second : Code} {env : Environment} {store : Store}
    {v : Option Value} {k₁ k₂ : Nat} {m₁ m₂ : Machine}
    (hcode : code.map Value.erase =
      first.map Value.erase ++ ((if v.isNone then [] else [.op .pop none]) ++ second.map Value.erase))
    (hk₁ : (start first env store).after k₁ = some m₁)
    (hregisters : m₁.erase.registers = ⟨v.toList, env, [], []⟩)
    (hk₂ : (start second env m₁.store).after k₂ = some m₂) :
    ∃ n, n ≤ 1 ∧ (start code env store).erase.after (k₁ + (n + k₂)) =
      some (m₂.erase.later (m₁.steps + n)) := by
  -- the whole is the first program with the second behind it
  obtain ⟨more, hmore⟩ : ∃ more : Code,
      more = (if v.isNone then [] else [Value.op .pop none]) ++ second.map Value.erase := ⟨_, rfl⟩
  have hstart : (start code env store).erase = (start first env store).erase.behind more := by
    simp only [start, erase, Registers.erase, hcode, ← hmore]
    rfl
  have hfirst : (start code env store).erase.after k₁ = some (m₁.erase.behind more) := by
    rw [hstart]
    refine after_behind more ?_
    rw [after_erase, hk₁]
    rfl
  have hmiddle : m₁.erase.behind more = ⟨⟨v.toList, env, more, []⟩, m₁.store.erase, m₁.steps⟩ := by
    rw [behind, hregisters]
    rfl
  obtain ⟨n, hn, hdrop⟩ := after_drop v env (second.map Value.erase) m₁.store.erase m₁.steps
  rw [← hmore, ← hmiddle] at hdrop
  refine ⟨n, hn, ?_⟩
  -- and then the second one starts, with steps made before it
  have hlater : (⟨⟨[], env, second.map Value.erase, []⟩, m₁.store.erase, m₁.steps + n⟩ : Machine) =
      (start second env m₁.store).erase.later (m₁.steps + n) := by
    rw [later]
    exact congrArg _ (Nat.zero_add _).symm
  rw [after_add hfirst, after_add hdrop, hlater]
  refine after_later _ ?_
  rw [after_erase]
  exact congrArg _ hk₂

/-- A run that comes to its end without origins comes to the same end with them. -/
theorem Machine.runFor_of_erase_isHalted (limit budget : Nat) {k : Nat} {m last : Machine}
    (hk : m.erase.after k = some last) (hhalt : last.isHalted) (hle : k ≤ budget) :
    ∃ r m', runFor limit budget m = (.ok r, m') ∧ r.map Value.erase = last.top ∧
      m'.store.erase = last.store := by
  have hrun := runFor_erase limit budget m
  rw [runFor_of_after_isHalted limit hk hhalt hle] at hrun
  generalize runFor limit budget m = out at hrun ⊢
  obtain ⟨result, m'⟩ := out
  simp only [Prod.mk.injEq] at hrun
  obtain ⟨hresult, rfl⟩ := hrun
  cases result with
  | error e => cases hresult
  | ok r => exact ⟨r, m', rfl, (Except.ok.inj hresult).symm, rfl⟩

/-- The whole of two programs evaluates to what the second evaluates to after the first. -/
theorem Session.eval_join {s s₁ s₂ : Session} {first second : String} {r₁ r : Option Value} {limit : Nat}
    (hs : s.Reachable) (h₁ : s.eval first = (.ok r₁, s₁)) (h₂ : s₁.eval second = (.ok r, s₂))
    (hlimit : s.stepsOf first + s₁.stepsOf second + 1 ≤ limit) :
    ∃ r' s', { s with stepLimit := limit }.eval (first ++ "\n" ++ second) = (.ok r', s') ∧
      r'.map Value.erase = r.map Value.erase ∧ s'.globals = s₂.globals ∧
      s'.store.erase = s₂.store.erase ∧ s'.globalFrame = s₂.globalFrame := by
  generalize hsteps : s₁.stepsOf second = k₂ at hlimit
  obtain ⟨q, m₂, hq, hk₂, hhalt₂, rfl, rfl⟩ := Session.after_of_eval h₂
  rw [hsteps] at hk₂
  obtain ⟨p, m₁, hp, hk₁, hhalt₁, -, rfl⟩ := Session.after_of_eval h₁
  obtain ⟨c, p', last, hc, hp', hlast, hcode, hglobals⟩ :=
    compile_join (compile_eq_ok_iff.mpr ⟨p, hp, rfl⟩) (compile_eq_ok_iff.mpr ⟨q, hq, rfl⟩)
  obtain rfl : p = p' := Except.ok.inj (hp.symm.trans hp')
  obtain ⟨h, hh⟩ := hs.kept.heap
  obtain ⟨v, hregisters, hv⟩ :=
    hh.registers_of_halted (Session.scoped_of_program hp) hlast hk₁ hhalt₁
  have hpop : (if last.defined? = none then [Value.op .pop none] else []) =
      if v.isNone then [] else [Value.op .pop none] := by
    rw [hv]
    cases last.defined? <;> rfl
  rw [hpop, List.append_assoc] at hcode
  obtain ⟨n, hn, hafter⟩ := Machine.after_in_parts hcode hk₁ hregisters hk₂
  have hhalt : (m₂.erase.later (m₁.steps + n)).isHalted := List.isEmpty_map.trans hhalt₂
  obtain ⟨r', m', hrun, hr', hstore⟩ :=
    Machine.runFor_of_erase_isHalted limit limit hafter hhalt (by omega)
  refine ⟨r', { s with stepLimit := limit, globals := c.globals, store := m'.store }, ?_, ?_, ?_, ?_, rfl⟩
  · have hrun' : (Machine.start c.code s.env s.store).runWithLimit limit = (.ok r', m') := hrun
    have hc' : Session.compile { s with stepLimit := limit } (first ++ "\n" ++ second) = .ok c := hc
    unfold Session.eval
    rw [hc']
    simp only
    exact hrun' ▸ rfl
  · rw [hr']
    exact List.head?_map
  · exact hglobals
  · exact hstore

/-- **A program in two parts is the program that is given at once.** If a source compiles, and another
one compiles against the names that it leaves, then both compile at once: to the code of the first, one
`POP` if its last form is no definition, and the code of the second, but for origins. And in a session
with a history both evaluate at once to what the second evaluates to after the first, and leave the same
names and the same values, in a store that is the same. -/
theorem increments_agree_with_whole :
    (∀ (d : Dialect) (globals : List String) (first second : String) (c₁ c₂ : Compiled),
      compile d globals first = .ok c₁ → compile d c₁.globals second = .ok c₂ →
      ∃ c p last, compile d globals (first ++ "\n" ++ second) = .ok c ∧
        Program.ofRun globals (.ofText d first) = .ok p ∧ p.getLast? = some last ∧
        c.code.map Value.erase = c₁.code.map Value.erase ++
          (if last.defined? = none then [.op .pop none] else []) ++ c₂.code.map Value.erase ∧
        c.globals = c₂.globals) ∧
    ∀ s : Session, s.Reachable → ∀ (first second : String) (r₁ r : Option Value) (s₁ s₂ : Session),
      s.eval first = (.ok r₁, s₁) → s₁.eval second = (.ok r, s₂) →
      ∀ limit, s.stepsOf first + s₁.stepsOf second + 1 ≤ limit →
      ∃ r' s', { s with stepLimit := limit }.eval (first ++ "\n" ++ second) = (.ok r', s') ∧
        r'.map Value.erase = r.map Value.erase ∧ s'.globals = s₂.globals ∧
        s'.values.map Value.erase = s₂.values.map Value.erase ∧ s'.store.erase = s₂.store.erase := by
  constructor
  · intro d globals first second c₁ c₂ h₁ h₂
    exact compile_join h₁ h₂
  · intro s hs first second r₁ r s₁ s₂ h₁ h₂ limit hlimit
    obtain ⟨r', s', heval, hr, hglobals, hstore, hglobal⟩ := Session.eval_join hs h₁ h₂ hlimit
    refine ⟨r', s', heval, hr, hglobals, ?_, hstore⟩
    rw [Session.values, Session.values, ← Store.contents_erase, ← Store.contents_erase, hstore, hglobal]

/-- The first part ends in an expression and a comment, and the second defines a name again that the first
one uses. -/
theorem redefinition_in_two_parts :
    ∃ first second, first = "(define (f n) (* k n)) (f 3) ; six" ∧
      second = "(define k (lambda (n) (f n))) (k 21)" ∧
      (∃ c₁ c₂ c, compile {} ["k"] first = .ok c₁ ∧ compile {} c₁.globals second = .ok c₂ ∧
        compile {} ["k"] (first ++ "\n" ++ second) = .ok c ∧ c.globals = c₂.globals) ∧
      ∃ (s s₁ s₂ : Session) (r₁ r r' : Option Value) (s' : Session),
        s = Session.after {} [.eval "(define k 2)"] ∧ s.eval first = (.ok r₁, s₁) ∧
        s₁.eval second = (.ok r, s₂) ∧
        { s with stepLimit := 60 }.eval (first ++ "\n" ++ second) = (.ok r', s') ∧
        r'.map Value.erase = r.map Value.erase ∧ s'.globals = s₂.globals := by
  let s := Session.after {} [.eval "(define k 2)"]
  let first := "(define (f n) (* k n)) (f 3) ; six"
  let second := "(define k (lambda (n) (f n))) (k 21)"
  have hok₁ : (s.eval first).1.isOk := by decide +kernel
  have hok₂ : ((s.eval first).2.eval second).1.isOk := by decide +kernel
  have hlimit : s.stepsOf first + (s.eval first).2.stepsOf second + 1 ≤ 60 := by decide +kernel
  have hcompile₁ : (compile {} ["k"] first).isOk := by decide +kernel
  have hcompile₂ : (compile {} ["k", "f"] second).isOk := by decide +kernel
  have hglobals₁ : (compile {} ["k"] first).toOption.map (·.globals) = some ["k", "f"] := by
    decide +kernel
  refine ⟨first, second, rfl, rfl, ?_, ?_⟩
  · obtain ⟨c₁, hc₁⟩ := Except.exists_of_isOk hcompile₁
    rw [hc₁] at hglobals₁
    have hglobals : c₁.globals = ["k", "f"] := Option.some.inj hglobals₁
    rw [← hglobals] at hcompile₂
    obtain ⟨c₂, hc₂⟩ := Except.exists_of_isOk hcompile₂
    obtain ⟨c, _, _, hc, -, -, -, hglobals'⟩ :=
      increments_agree_with_whole.1 {} ["k"] first second c₁ c₂ hc₁ hc₂
    exact ⟨c₁, c₂, c, hc₁, hc₂, hc, hglobals'⟩
  · obtain ⟨r₁, hr₁⟩ := Except.exists_of_isOk hok₁
    obtain ⟨r, hr⟩ := Except.exists_of_isOk hok₂
    have h₁ : s.eval first = (.ok r₁, (s.eval first).2) := Prod.ext hr₁ rfl
    have h₂ : (s.eval first).2.eval second = (.ok r, ((s.eval first).2.eval second).2) := Prod.ext hr rfl
    obtain ⟨r', s', heval, hr', hglobals, -⟩ :=
      increments_agree_with_whole.2 s ⟨_, _, rfl⟩ first second r₁ r _ _ h₁ h₂ 60 hlimit
    exact ⟨s, _, _, r₁, r, r', s', rfl, h₁, h₂, heval, hr', hglobals⟩

end LispMachine
