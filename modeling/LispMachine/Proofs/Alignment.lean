import LispMachine.Proofs.Acceptance
import LispMachine.Proofs.History

/-!
# Names and values of a session

The global names and the global values of a session go together, one for one, whatever was asked of the
session before. A program that runs to its end adds to both at their ends, for each of its definitions
in the order of the source: the name, and the image of the object that the definition was evaluated to.

Names are found in two ways: `Session.lookup` searches the names for the last occurrence, and a program
that is nothing but the name is compiled to a load from the address that the name resolves to. Both
find the same value, and where one finds none the other reports the name as unbound.
-/

namespace LispMachine

open Read

/-- A text that is read as one identifier, which is the text itself. -/
def SpellsIdentifier (d : Dialect) (name : String) : Prop :=
  ∃ span offset, tokenize d name = .ok [⟨.identifier name, span⟩, .ending offset]

/-! ## Programs that are a name -/

theorem Scope.resolve_globals (globals : List String) (name : String) :
    Scope.resolve { globals } name = (lastIndex? name globals).map (⟨0, ·⟩) := by
  rw [Scope.resolve, Scope.frames, List.nil_append, Scope.resolveIn]
  cases lastIndex? name globals <;> rfl

section
variable (inner : Readers) (globals : List String) (name : String) (span : Span) (offset : Nat)

theorem readForm_name :
    readForm inner { globals } ⟨[⟨.identifier name, span⟩], .eof offset, 0⟩ =
      match lastIndex? name globals with
      | some i => .ok (.var span name ⟨0, i⟩, ⟨[], .eof offset, span.stop⟩)
      | none => .error (.unbound name) := by
  unfold readForm
  rw [bind_of_ok (next_cons rfl)]
  simp only [Scope.resolve_globals]
  cases lastIndex? name globals <;> rfl

/-- A name at the top level is an expression, in the scope of the global names. -/
theorem tryTopForm_name :
    tryTopForm inner { globals } ⟨[⟨.identifier name, span⟩], .eof offset, 0⟩ =
      match lastIndex? name globals with
      | some i => .ok (some (.value span (.var span name ⟨0, i⟩), { globals }), ⟨[], .eof offset, span.stop⟩)
      | none => .error (.unbound name) := by
  have hform := readForm_name inner globals name span offset
  show (readForm inner { globals } _ >>= fun p => _) >>= _ = _
  cases hl : lastIndex? name globals with
  | none =>
    rw [hl] at hform
    rw [hform]
    rfl
  | some i =>
    rw [hl] at hform
    rw [hform]
    rfl

theorem Program.ofRun_name {r : TokenRun} (htokens : r.tokens = [⟨.identifier name, span⟩])
    (hending : r.ending = .eof offset) :
    Program.ofRun globals r =
      match lastIndex? name globals with
      | some i => .ok [.value span (.var span name ⟨0, i⟩)]
      | none => .error (.unbound name) := by
  have hfeed : Feed.ofRun r = ⟨[⟨.identifier name, span⟩], .eof offset, 0⟩ := by
    rw [Feed.ofRun, htokens, hending]
  have htry := tryTopForm_name (readers (maxNesting - 1)) globals name span offset
  -- an unbound name is the error of the whole source; a bound one is its only form
  cases hl : lastIndex? name globals with
  | none =>
    rw [hl, ← hfeed] at htry
    exact Program.ofRun_of_error htry
  | some i =>
    rw [hl] at htry
    unfold Program.ofRun
    rw [hfeed]
    generalize readers (maxNesting - 1) = inner at htry
    have hcollects : Collects (tryTopForm inner) { globals }
        ⟨[⟨.identifier name, span⟩], .eof offset, 0⟩ [.value span (.var span name ⟨0, i⟩)]
        ⟨[], .eof offset, span.stop⟩ := .item htry (.done rfl)
    have hcollect : collect (tryTopForm inner) { globals } ⟨[⟨.identifier name, span⟩], .eof offset, 0⟩ =
        .ok ([.value span (.var span name ⟨0, i⟩)], ⟨[], .eof offset, span.stop⟩) :=
      hcollects.collectFor_eq (Nat.lt_succ_self _)
    rw [StateT.run', readProgram_def, bind_of_ok hcollect]
    rfl

end

/-- A session reads a name as a variable, or finds it unbound. -/
theorem Session.program_name {s : Session} {name : String} (hname : SpellsIdentifier s.dialect name) :
    ∃ span, s.program name =
      match lastIndex? name s.globals with
      | some i => .ok [.value span (.var span name ⟨0, i⟩)]
      | none => .error (.unbound name) := by
  obtain ⟨span, offset, htokens⟩ := hname
  unfold tokenize TokenRun.result at htokens
  split at htokens
  next offset' hending =>
    have hall : (TokenRun.ofText s.dialect name).tokens ++ [.ending offset'] =
        [⟨.identifier name, span⟩] ++ [.ending offset] := Except.ok.inj htokens
    obtain ⟨hinit, -⟩ := List.append_inj' hall rfl
    exact ⟨span, Program.ofRun_name s.globals name span offset' hinit hending⟩
  next => cases htokens

/-! ## Names and values -/

/-- A global variable is loaded with the one instruction that its code is. -/
theorem Session.execute_variable {s : Session} {span : Span} {name : String} {i : Nat} {v : Value}
    (hlimit : 1 ≤ s.stepLimit) (hi : i ≤ Number.greatest) (hv : s.store.get? s.globalFrame i = some v) :
    (s.execute [.value span (.var span name ⟨0, i⟩)]).1 = .ok (some v) := by
  have hindex : (Number.ofIndex i).toInt = i := by
    rw [Number.toInt_ofIndex, Nat.min_eq_left (by omega)]
  have hzero : (Number.ofIndex 0).toInt = (0 : Nat) := by
    rw [Number.toInt_ofIndex, Nat.zero_min]
  have hframe : s.env[0]? = some s.globalFrame := rfl
  have hload : s.store.load s.env (.ofIndex 0) (.ofIndex i) = .ok v := by
    rw [Store.load_of_toInt hzero hindex hframe, hv]
  obtain ⟨rest, hrest⟩ := Nat.exists_eq_add_of_le' hlimit
  have hnext : (Machine.start [instr .ld span, .number (.ofIndex 0), .number (.ofIndex i)] s.env
      s.store).next = .ok (some ⟨.ld, some span, ⟨[v], s.env, [], []⟩, .keep⟩) := by
    simp only [Machine.start, Machine.next, perform_ld, hload]
    rfl
  have hrun := (Machine.runFor_succ s.stepLimit hnext rest).trans
    (Machine.runFor_of_isHalted s.stepLimit rfl rest)
  rw [← hrest] at hrun
  unfold Session.execute Machine.runWithLimit
  have hcode : Program.code [.value span (.var span name ⟨0, i⟩)] =
      [instr .ld span, .number (.ofIndex 0), .number (.ofIndex i)] := rfl
  rw [hcode, hrun]
  rfl

/-- What a name is found as in the two ways: as one value, or in neither. -/
theorem Session.lookup_and_eval {s : Session} (haligned : s.globals.length = s.values.length)
    {name : String} (hname : SpellsIdentifier s.dialect name) (hlimit : 1 ≤ s.stepLimit)
    (hfits : s.globals.length ≤ Number.greatest + 1) :
    (∃ v, s.lookup name = some v ∧ (s.eval name).1 = .ok (some v)) ∨
    s.lookup name = none ∧ (s.eval name).1 = .error (.unbound name) := by
  obtain ⟨span, hprogram⟩ := Session.program_name hname
  unfold Session.lookup
  rw [Session.eval_eq, hprogram]
  cases hi : lastIndex? name s.globals with
  | none => exact .inr ⟨rfl, rfl⟩
  | some i =>
    -- an occurrence among the names is a place among the values, as there are as many of them
    have hlt := lastIndex?_lt hi
    have hvalue : i < s.values.length := by omega
    have hv : s.store.get? s.globalFrame i = some s.values[i] := List.getElem?_eq_getElem hvalue
    exact .inl ⟨s.values[i], hv, Session.execute_variable hlimit (by omega) hv⟩

/-- **Names and values stay aligned.** In a session with any history there is a name for each global
value. A source that runs to its end spells a program, and adds the names that the program defines, and the
values that its definitions evaluate to, at the ends of both. And a name has the value that a program which is
the name evaluates to, as long as there are no more names than a machine with 64 bits can address. -/
theorem names_and_values_stay_aligned (s : Session) (hs : s.Reachable) :
    s.globals.length = s.values.length ∧
    (∀ (source : String) (r : Option Value) (s' : Session), s.eval source = (.ok r, s') →
      ∃ p, s.program source = .ok p ∧
        p.bare.Spells s.dialect source ∧ p.bare.WellFormed s.globals ∧
        (∃ h, Represents .anywhere h s) ∧
        ∀ h, Represents .anywhere h s → ∃ fuel defs h',
          Program.Defines (applyWith fuel) s.globalFrame s.globals p h defs h' ∧
          Represents .anywhere h' s' ∧ defs.map (·.1) = p.definedNames ∧
          s'.globals = s.globals ++ defs.map (·.1) ∧
          s'.values = s.values ++ defs.map (·.2.image)) ∧
    ∀ name : String, SpellsIdentifier s.dialect name → 1 ≤ s.stepLimit →
      s.globals.length ≤ Number.greatest + 1 →
      (∀ v, s.lookup name = some v ↔ (s.eval name).1 = .ok (some v)) ∧
      (s.lookup name = none ↔ (s.eval name).1 = .error (.unbound name)) := by
  refine ⟨hs.kept.aligned, ?_, ?_⟩
  · intro source r s' heval
    rw [Session.eval_eq] at heval
    cases hp : s.program source with
    | error fault =>
      rw [hp] at heval
      cases heval
    | ok p =>
      simp only [hp] at heval
      obtain ⟨hspells, hwf⟩ := Program.spells_of_ofRun hp
      refine ⟨p, rfl, hspells, hwf, hs.kept.heap, ?_⟩
      intro h hh
      obtain ⟨fuel, o, h', defs, -, -, hh', hdefs, hglobals, hvalues⟩ :=
        hh.execute_ok (Session.scoped_of_program hp) heval
      exact ⟨fuel, defs, h', hdefs, hh', hdefs.names_eq, hglobals, hvalues⟩
  · intro name hname hlimit hfits
    obtain ⟨v, hlookup, heval⟩ | ⟨hlookup, heval⟩ :=
      Session.lookup_and_eval hs.kept.aligned hname hlimit hfits
    · rw [hlookup, heval]
      refine ⟨fun w => ⟨fun h => ?_, fun h => ?_⟩, ⟨nofun, nofun⟩⟩
      · rw [Option.some.inj h]
      · rw [Option.some.inj (Except.ok.inj h)]
    · rw [hlookup, heval]
      exact ⟨fun w => ⟨nofun, nofun⟩, ⟨fun _ => rfl, fun _ => rfl⟩⟩

/-- A name that was defined twice, before a program that failed and a machine that defined it in vain: both
ways find the sum of the second definition. -/
theorem redefined_name_stays_aligned :
    ∃ s : Session,
      s = Session.after {} [.eval "(define y 1) (define x y) (define x (+ y 1))",
        .eval "(define x 0) (car x)", .machine "(define x 5)" 9, .limit 1] ∧
      s.globals.length = s.values.length ∧ SpellsIdentifier s.dialect "x" ∧
      s.lookup "x" = some (.number 2) ∧ (s.eval "x").1 = .ok (some (.number 2)) ∧
      (s.lookup "x" = none ↔ (s.eval "x").1 = .error (.unbound "x")) := by
  let s := Session.after {} [.eval "(define y 1) (define x y) (define x (+ y 1))",
    .eval "(define x 0) (car x)", .machine "(define x 5)" 9, .limit 1]
  have hrun : TokenRun.ofText s.dialect "x" =
      ⟨[⟨.identifier "x", ⟨0, 1⟩⟩], .eof 1, ⟨1, []⟩⟩ := by decide +kernel
  have hname : SpellsIdentifier s.dialect "x" := by
    refine ⟨⟨0, 1⟩, 1, ?_⟩
    rw [tokenize, hrun]
    rfl
  obtain ⟨haligned, -, hfound⟩ := names_and_values_stay_aligned s ⟨_, _, rfl⟩
  have hlimit : 1 ≤ s.stepLimit := by decide +kernel
  have hfits : s.globals.length ≤ Number.greatest + 1 := by decide +kernel
  obtain ⟨hvalue, hunbound⟩ := hfound "x" hname hlimit hfits
  obtain ⟨v, hlookup, hv⟩ : ∃ v, s.lookup "x" = some v ∧ v.number? = some 2 := by
    have hany : (s.lookup "x").any (·.number? = some 2) := by decide +kernel
    obtain ⟨v, hlookup, hv⟩ := (Option.any_eq_true _ _).mp hany
    exact ⟨v, hlookup, of_decide_eq_true hv⟩
  cases v with
  | number n =>
    cases hv
    exact ⟨s, rfl, haligned, hname, hlookup, (hvalue _).mp hlookup, hunbound⟩
  | _ => cases hv

end LispMachine
