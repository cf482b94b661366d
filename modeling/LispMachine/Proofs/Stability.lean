import LispMachine.Proofs.Settled

/-!
# Old code in a session that goes on

What is asked of a session later does not change what code means that was compiled earlier. The global
frame grows and is cut back, but never below the values that were there, and no other frame changes
(`Session.Extends`): the frame of a `letrec` is filled in the run that made it. The old code and the
functions that it calls look at no more of the global frame than there were names when they were
compiled, and so they find what they found before, also where the names have been defined again.

In the two runs the global frame is its own partner as far as the old session has names
(`Session.Settled.twin`). Code that defines nothing needs no more than that.
-/

namespace LispMachine

/-- A session that has what an older one had. -/
structure Session.Extends (s s' : Session) : Prop where
  global : s'.globalFrame = s.globalFrame
  store : s.store.Extends s.globalFrame s'.store

namespace Session.Extends
variable {s s' s'' : Session} {h h' : Heap}

theorem refl (s : Session) : s.Extends s := ⟨rfl, .refl _ _⟩

theorem trans (hext : s.Extends s') (hext' : s'.Extends s'') : s.Extends s'' := by
  refine ⟨hext'.global.trans hext.global, hext.store.trans ?_⟩
  rw [← hext.global]
  exact hext'.store

/-- A session extends another where a heap does. -/
theorem of_heaps (himage : h.image = s.store) (himage' : h'.image = s'.store)
    (hglobal : s'.globalFrame = s.globalFrame) (hsize : h.size ≤ h'.size)
    (hframes : ∀ f, f < h.size → f ≠ s.globalFrame → h'.contents f = h.contents f)
    (hgrown : h.contents s.globalFrame <+: h'.contents s.globalFrame) : s.Extends s' := by
  refine ⟨hglobal, ?_⟩
  rw [← himage, ← himage']
  refine ⟨?_, ?_, ?_⟩
  · rw [Heap.size_image, Heap.size_image]
    exact hsize
  · intro f hf hne
    rw [Heap.size_image] at hf
    rw [Heap.contents_image, Heap.contents_image, hframes f hf hne]
  · rw [Heap.contents_image, Heap.contents_image]
    exact hgrown.map _

/-- A session extends another where all old frames are as they were. -/
theorem of_kept (hh : Represents .anywhere h s) (hh' : Represents .anywhere h' s')
    (hglobal : s'.globalFrame = s.globalFrame) (hsize : h.size ≤ h'.size)
    (hkeep : ∀ f, f < h.size → h'.contents f = h.contents f) : s.Extends s' := by
  refine .of_heaps hh.image hh'.image hglobal hsize (fun f hf _ => hkeep f hf) ?_
  exact (hkeep _ hh.global_lt).symm ▸ List.prefix_rfl

end Session.Extends

section
variable {s s' : Session} {live : FrameId → Prop}

/-! ## What is asked later -/

theorem Represents.execute_extends {h : Heap} (hh : Represents .anywhere h s) {p : Program}
    (hscoped : p.Scoped .anywhere s.globals) : s.Extends (s.execute p).2 := by
  cases hexecute : s.execute p with
  | mk result s' =>
    cases result with
    | error e =>
      obtain ⟨-, hglobal, h', hh', hsize, hkeep⟩ := hh.execute_error hscoped hexecute
      exact .of_kept hh hh' hglobal hsize hkeep
    -- the run has only added to old frames at their ends, and only to the global one
    | ok r =>
      have hp := hh.loaded hscoped
      obtain ⟨k, -, hk⟩ := Machine.exists_after_runFor s.stepLimit s.stepLimit
        (Machine.start p.code [s.globalFrame] h.image)
      obtain ⟨c, h', hm, hsteps, -⟩ := hp.reaches hk
      rw [← Machine.runWithLimit, ← Session.env, hh.image] at hm
      have hstore : s'.store = h'.image ∧ s'.globalFrame = s.globalFrame := by
        unfold Session.execute at hexecute
        cases hrun : (Machine.start p.code s.env s.store).runWithLimit s.stepLimit with
        | mk result m =>
          rw [hrun] at hexecute hm
          cases result with
          | error e => cases hexecute
          | ok r' =>
            cases hexecute
            exact ⟨congrArg Machine.store hm, rfl⟩
      refine .of_heaps hh.image hstore.1.symm hstore.2 hsteps.size_le ?_ ?_
      · intro f hf hne
        exact hsteps.contents_old (Nat.le_refl _) hf fun hsome => hne (Option.some.inj hsome).symm
      · exact hsteps.contents_prefix (Nat.le_refl _) hh.global_lt

/-- Whatever is asked of a session, it keeps what it had. -/
theorem Kept.answer_extends (hs : Kept .anywhere s) (r : Request) : s.Extends (s.answer r) := by
  obtain ⟨h, hh⟩ := hs.heap
  rw [Session.answer_eq_answerBy]
  cases r with
  | limit steps => exact ⟨rfl, .refl _ _⟩
  | eval source =>
    rw [Session.answerBy]
    cases hp : s.program source with
    | error fault => exact .refl s
    | ok p => exact hh.execute_extends (Session.scoped_of_program hp)
  | machine source steps =>
    rw [Session.answerBy]
    cases hp : s.program source with
    | error fault => exact .refl s
    | ok p =>
      obtain ⟨h', hh', hsize, hkeep⟩ := hh.run_load (Session.scoped_of_program hp) steps
      exact .of_kept hh hh' rfl hsize hkeep

theorem Session.Reachable.answer (hs : s.Reachable) (r : Request) : (s.answer r).Reachable := by
  obtain ⟨d, history, rfl⟩ := hs
  refine ⟨d, history ++ [r], ?_⟩
  rw [Session.after, Session.after, List.foldl_append, List.foldl_cons, List.foldl_nil]

theorem Session.Reachable.foldl_extends (hs : s.Reachable) (requests : List Request) :
    s.Extends (requests.foldl Session.answer s) := by
  induction requests generalizing s with
  | nil => exact .refl s
  | cons r rest ih => exact (hs.kept.answer_extends r).trans (ih (hs.answer r))

/-! ## Old code -/

/-- A program that defines nothing. -/
def Program.DefineFree (p : Program) : Prop := ∀ form ∈ p, form.defined? = none

theorem Program.DefineFree.definedNames_eq {p : Program} (hp : p.DefineFree) : p.definedNames = [] :=
  List.filterMap_eq_nil_iff.mpr hp

/-- A program that defines nothing ends in a session in the same way as in one that extends it. -/
theorem Session.Settled.later_sameOutcome (hs : Settled s live)
    (haligned : s.globals.length = s.values.length) (hext : s.Extends s') {p : Program}
    (hscoped : p.Scoped .anywhere s.globals) (hfree : p.DefineFree) (limit : Nat) :
    SameOutcome ((Machine.start p.code s.env s.store).runWithLimit limit)
      ((Machine.start p.code s'.env s'.store).runWithLimit limit) := by
  have hnames := hfree.definedNames_eq
  -- there is no copy here: the global frame is its own partner in both runs
  have hcopy : ∀ f, False → f < s'.store.size ∧ s'.store.contents f = s.values := fun _ => False.elim
  have hmeets : ∀ k, k ≤ s.globals.length + p.definedNames.length →
      (hs.twin hext.store hcopy).meets 0 k s.globalFrame s.globalFrame := by
    intro k hk
    rw [hnames] at hk
    exact .inr ⟨rfl, rfl, hk⟩
  have henv : s'.env = [s.globalFrame] := by rw [Session.env, hext.global]
  rw [henv]
  exact (Program.endTogether hscoped hmeets (fun hne => absurd hnames hne)
    (hs.twin_storesAlike haligned hext.store hcopy) limit).sameOutcome

end

/-- **Later definitions never change the meaning of earlier code.** Code that was compiled in a session,
and that defines nothing, has the same outcome after any further requests as it had before them, under
any limit: evaluations that succeed or fail, definitions of names that the code or the functions that
it calls use, and machines over copies. -/
theorem later_requests_keep_meaning (s : Session) (hs : s.Reachable) (source : String) (p : Program)
    (hp : s.program source = .ok p) (hfree : p.DefineFree) (compiled : Compiled)
    (hcompile : s.compile source = .ok compiled) (requests : List Request) (limit : Nat) :
    SameOutcome
      ((Machine.start compiled.code s.env s.store).runWithLimit limit)
      ((Machine.start compiled.code (requests.foldl Session.answer s).env
        (requests.foldl Session.answer s).store).runWithLimit limit) := by
  obtain ⟨p', hp', hcode, -⟩ := Session.compile_eq_ok hcompile
  cases hp.symm.trans hp'
  rw [hcode]
  obtain ⟨live, hlive⟩ := hs.settled
  exact hlive.later_sameOutcome hs.kept.aligned (hs.foldl_extends requests)
    (Session.scoped_of_program hp) hfree limit

/-- A call of a function that is defined again, with the name that it uses, after a definition of both that
has failed. -/
theorem redefined_function_keeps_meaning :
    ∃ (s : Session) (p : Program) (compiled : Compiled) (requests : List Request),
      s = Session.after {} [.eval "(define k 2) (define (scale n) (* k n))"] ∧
      s.program "(cons (scale 21) null)" = .ok p ∧ p.DefineFree ∧
      s.compile "(cons (scale 21) null)" = .ok compiled ∧
      requests = [.eval "(define k 5) (define scale k) (scale 1)",
        .eval "(define k 7) (define (scale n) (+ k n))"] ∧
      (s.eval "(define k 5) (define scale k) (scale 1)").1.isOk = false ∧
      SameOutcome
        ((Machine.start compiled.code s.env s.store).runWithLimit 100)
        ((Machine.start compiled.code (requests.foldl Session.answer s).env
          (requests.foldl Session.answer s).store).runWithLimit 100) := by
  let s := Session.after {} [.eval "(define k 2) (define (scale n) (* k n))"]
  let source := "(cons (scale 21) null)"
  let requests : List Request := [.eval "(define k 5) (define scale k) (scale 1)",
    .eval "(define k 7) (define (scale n) (+ k n))"]
  have hread : (s.program source).isOk := by decide +kernel
  have hnames : (s.program source).toOption.map Program.definedNames = some [] := by decide +kernel
  have hok : (s.compile source).isOk := by decide +kernel
  have hfails : (s.eval "(define k 5) (define scale k) (scale 1)").1.isOk = false := by decide +kernel
  obtain ⟨p, hp⟩ := Except.exists_of_isOk hread
  obtain ⟨compiled, hcompile⟩ := Except.exists_of_isOk hok
  rw [hp] at hnames
  have hfree : p.DefineFree := List.filterMap_eq_nil_iff.mp (Option.some.inj hnames)
  exact ⟨s, p, compiled, requests, rfl, hp, hfree, hcompile, rfl, hfails,
    later_requests_keep_meaning s ⟨_, _, rfl⟩ source p hp hfree compiled hcompile requests 100⟩

end LispMachine
