import LispMachine.Session
import LispMachine.Proofs.Agreement
import LispMachine.Proofs.Reading

/-!
# The history of a session

A session is asked to evaluate sources, to change its limit on steps, and for machines that run over a
copy of its global frame. Whatever is asked, and whether it succeeds or fails, the store of the session
stays the image of a heap (`kept_afterBy`), so that what is known of programs over a heap holds of
every session with a history.

What one request does is said by three lemmas: a program that runs to its end makes its definitions
(`Represents.execute_ok`), one that fails leaves every older frame as it was
(`Represents.execute_error`), and so does a machine that runs over a copy (`Represents.run_load`).

Programs can be treated before they are compiled, as long as that keeps them scoped. A session proper
leaves them as they are.
-/

namespace LispMachine

/-- What can be asked of a session. -/
inductive Request where
  | eval (source : String)
  | limit (steps : Nat)
  /-- A machine for a source, which then makes at most so many steps. -/
  | machine (source : String) (steps : Nat)
deriving Repr

namespace Session

/-- Reads a source against the global names. -/
def program (s : Session) (source : String) : Except Fault Program :=
  Program.ofRun s.globals (.ofText s.dialect source)

/-- Runs a program that was read. -/
def execute (s : Session) (p : Program) : Except Error (Option Value) × Session :=
  match (Machine.start p.code s.env s.store).runWithLimit s.stepLimit with
  | (.ok r, m) => (.ok r, { s with globals := s.globals ++ p.definedNames, store := m.store })
  | (.error e, m) =>
    (.error (.runtime e), { s with store := m.store.truncate s.globalFrame s.values.length })

/-- How many steps the evaluation of a source takes: none if it does not compile. -/
def stepsOf (s : Session) (source : String) : Nat :=
  match s.program source with
  | .ok p => ((Machine.start p.code s.env s.store).runWithLimit s.stepLimit).2.steps
  | .error _ => 0

/-- A machine about to run a program over a copy of the global frame. -/
def load (s : Session) (p : Program) : Machine := .start p.code [s.store.size] (s.store.alloc s.values)

/-- What a request leaves of a session. Frames are shared, and so the store that a machine leaves is the
session's as well. -/
def answer (s : Session) : Request → Session
  | .eval source => (s.eval source).2
  | .limit steps => { s with stepLimit := steps }
  | .machine source steps =>
    match s.machine source with
    | .ok m => { s with store := (m.runWithLimit steps).2.store }
    | .error _ => s

/-- What a request leaves of a session that treats programs before it compiles them. -/
def answerBy (treat : Program → Program) (s : Session) : Request → Session
  | .eval source =>
    match s.program source with
    | .ok p => (s.execute (treat p)).2
    | .error _ => s
  | .limit steps => { s with stepLimit := steps }
  | .machine source steps =>
    match s.program source with
    | .ok p => { s with store := ((s.load (treat p)).runWithLimit steps).2.store }
    | .error _ => s

/-- The session after a history of requests, from a new session on. -/
def after (d : Dialect) (history : List Request) : Session :=
  history.foldl answer { dialect := d }

/-- The same history for a session that treats programs. -/
def afterBy (treat : Program → Program) (d : Dialect) (history : List Request) : Session :=
  history.foldl (answerBy treat) { dialect := d }

/-- A session with a history. -/
def Reachable (s : Session) : Prop := ∃ d history, s = after d history

theorem eval_eq (s : Session) (source : String) :
    s.eval source =
      match s.program source with
      | .ok p => s.execute p
      | .error fault => (.error (fault.toError source), s) := by
  unfold eval Session.compile LispMachine.compile program
  cases Program.ofRun s.globals (.ofText s.dialect source) <;> rfl

theorem machine_eq (s : Session) (source : String) :
    s.machine source =
      match s.program source with
      | .ok p => .ok (s.load p)
      | .error fault => .error (fault.toError source) := by
  unfold machine Session.compile LispMachine.compile program
  cases Program.ofRun s.globals (.ofText s.dialect source) <;> rfl

theorem compile_eq_ok {s : Session} {source : String} {compiled : Compiled}
    (h : s.compile source = .ok compiled) :
    ∃ p, s.program source = .ok p ∧ compiled.code = p.code ∧
      compiled.globals = s.globals ++ p.definedNames := by
  unfold Session.compile LispMachine.compile at h
  unfold program
  cases hp : Program.ofRun s.globals (.ofText s.dialect source) with
  | error fault =>
    rw [hp] at h
    cases h
  | ok p =>
    rw [hp] at h
    cases h
    exact ⟨p, rfl, rfl, rfl⟩

theorem answer_eq_answerBy (s : Session) (r : Request) : s.answer r = s.answerBy id r := by
  cases r with
  | eval source =>
    rw [answer, answerBy, eval_eq]
    cases s.program source <;> rfl
  | limit steps => rfl
  | machine source steps =>
    rw [answer, answerBy, machine_eq]
    cases s.program source <;> rfl

theorem after_eq_afterBy (d : Dialect) (history : List Request) : after d history = afterBy id d history := by
  have hstep : answer = answerBy id := funext fun s => funext fun r => answer_eq_answerBy s r
  rw [after, afterBy, hstep]

theorem scoped_of_program {s : Session} {source : String} {p : Program}
    (h : s.program source = .ok p) : p.Scoped .anywhere s.globals :=
  Program.scoped_of_ofRun h

end Session

/-! ## What a run does to a session -/

/-- The store of a session is the image of a heap, which has the global frame. -/
structure Represents (site : Site) (h : Heap) (s : Session) : Prop where
  image : h.image = s.store
  sound : h.Sound site
  global_lt : s.globalFrame < h.size

namespace Represents
variable {site : Site} {h : Heap} {s s' : Session} {p : Program}

theorem values_eq (hh : Represents site h s) :
    s.values = (h.contents s.globalFrame).map Object.image := by
  rw [Session.values, ← hh.image, Heap.contents_image]

theorem loaded (hh : Represents site h s) (hscoped : p.Scoped site s.globals) :
    Loaded site s.globalFrame s.globals p h :=
  ⟨hh.sound, hh.global_lt, hscoped⟩

/-- Whatever definitions a program makes, they are in the session if it runs to its end. -/
theorem execute_defines (hh : Represents site h s) (hscoped : p.Scoped site s.globals) {r : Option Value}
    (hexecute : s.execute p = (.ok r, s')) {fuel : Nat} {defs : List (String × Object)} {h' : Heap}
    (hdefs : Program.Defines (applyWith fuel) s.globalFrame s.globals p h defs h') :
    s'.globals = s.globals ++ defs.map (·.1) ∧ s'.values = s.values ++ defs.map (·.2.image) := by
  have hp := hh.loaded hscoped
  unfold Session.execute at hexecute
  cases hrun : (Machine.start p.code s.env s.store).runWithLimit s.stepLimit with
  | mk result m =>
    rw [hrun] at hexecute
    cases result with
    | error e => cases hexecute
    | ok r' =>
      cases hexecute
      rw [← hh.image] at hrun
      obtain ⟨o, heval⟩ := hdefs.exists_eval
      have hstore : m.store = h'.image := hp.store_of_run heval hrun
      constructor
      · rw [hdefs.names_eq]
      · show m.store.contents s.globalFrame = _
        rw [hstore, Heap.contents_image, hp.contents_of_defines hdefs, List.map_append, ← hh.values_eq,
          List.map_map]
        rfl

/-- A program that runs to its end is evaluated to an object, and its definitions are in the session. -/
theorem execute_ok (hh : Represents site h s) (hscoped : p.Scoped site s.globals) {r : Option Value}
    (hexecute : s.execute p = (.ok r, s')) :
    ∃ fuel o h' defs, p.eval fuel s.globalFrame s.globals h = .ok (o, h') ∧ o.map Object.image = r ∧
      Represents site h' s' ∧
      Program.Defines (applyWith fuel) s.globalFrame s.globals p h defs h' ∧
      s'.globals = s.globals ++ defs.map (·.1) ∧
      s'.values = s.values ++ defs.map (·.2.image) := by
  have hp := hh.loaded hscoped
  have hrun := hexecute
  unfold Session.execute at hrun
  cases hmachine : (Machine.start p.code s.env s.store).runWithLimit s.stepLimit with
  | mk result m =>
    rw [hmachine] at hrun
    cases result with
    | error e => cases hrun
    | ok r' =>
      cases hrun
      rw [← hh.image] at hmachine
      obtain ⟨fuel, o, h', heval, hr, hstore⟩ := hp.eval_of_run hmachine
      obtain ⟨hs, hle⟩ := hp.sound_of_eval heval
      obtain ⟨defs, hdefs⟩ := Program.exists_defines heval
      have hrep : Represents site h' { s with
          globals := s.globals ++ p.definedNames, store := m.store } :=
        ⟨hstore.symm, hs, Nat.lt_of_lt_of_le hh.global_lt hle⟩
      exact ⟨fuel, o, h', defs, heval, hr, hrep, hdefs, hh.execute_defines hscoped hexecute hdefs⟩

/-- A program that fails leaves the names as they were, and every frame that was there before. -/
theorem execute_error (hh : Represents site h s) (hscoped : p.Scoped site s.globals) {e : Error}
    (hexecute : s.execute p = (.error e, s')) :
    s'.globals = s.globals ∧ s'.globalFrame = s.globalFrame ∧
      ∃ h', Represents site h' s' ∧ h.size ≤ h'.size ∧ ∀ f, f < h.size → h'.contents f = h.contents f := by
  have hp := hh.loaded hscoped
  unfold Session.execute at hexecute
  cases hrun : (Machine.start p.code s.env s.store).runWithLimit s.stepLimit with
  | mk result m =>
    rw [hrun] at hexecute
    cases result with
    | ok r => cases hexecute
    | error e' =>
      cases hexecute
      rw [← hh.image] at hrun
      obtain ⟨k, -, hk⟩ := Machine.exists_after_runFor s.stepLimit s.stepLimit
        (Machine.start p.code [s.globalFrame] h.image)
      rw [← Machine.runWithLimit, ← Session.env, hrun] at hk
      obtain ⟨c, h', rfl, hsteps, -⟩ := hp.reaches hk
      have hcommitted : s.values.length = (h.contents s.globalFrame).length := by
        rw [hh.values_eq, List.length_map]
      have hle := hsteps.size_le
      rw [hcommitted]
      refine ⟨rfl, rfl, h'.truncate s.globalFrame (h.contents s.globalFrame).length, ?_, ?_, ?_⟩
      · refine ⟨Heap.image_truncate h' _ _, (hsteps.sound hh.sound).truncate _ _, ?_⟩
        rw [Heap.size_truncate]
        exact Nat.lt_of_lt_of_le hh.global_lt hle
      · rw [Heap.size_truncate]
        exact hle
      · intro f hf
        rw [Heap.contents_truncate]
        by_cases hglobal : f = s.globalFrame
        · -- the global frame has only grown, and is cut back to what it was
          subst hglobal
          rw [if_pos rfl]
          exact (List.prefix_iff_eq_take.mp (hsteps.contents_prefix (Nat.le_refl _) hf)).symm
        · rw [if_neg hglobal]
          refine hsteps.contents_old (Nat.le_refl _) hf fun hsome => hglobal ?_
          exact (Option.some.inj hsome).symm

/-- A machine over a copy of the global frame runs its program over a heap with one more frame. -/
theorem load (hh : Represents site h s) (hscoped : p.Scoped site s.globals) :
    Loaded site h.size s.globals p (h.alloc (h.contents s.globalFrame)) ∧
      s.load p = Machine.start p.code [h.size] (h.alloc (h.contents s.globalFrame)).image := by
  constructor
  · refine ⟨hh.sound.alloc (hh.sound _), ?_, hscoped⟩
    rw [Heap.size_alloc]
    exact Nat.lt_succ_self _
  · rw [Session.load, Heap.image_alloc, hh.image, ← hh.values_eq, ← hh.image, Heap.size_image]

/-- A machine over a copy of the global frame leaves every frame as it was. -/
theorem run_load (hh : Represents site h s) (hscoped : p.Scoped site s.globals) (steps : Nat) :
    ∃ h', Represents site h' { s with store := ((s.load p).runWithLimit steps).2.store } ∧
      h.size ≤ h'.size ∧ ∀ f, f < h.size → h'.contents f = h.contents f := by
  have hsize := Heap.size_alloc h (h.contents s.globalFrame)
  obtain ⟨hp, hload⟩ := hh.load hscoped
  obtain ⟨k, -, hk⟩ := Machine.exists_after_runFor steps steps (s.load p)
  rw [hload] at hk
  -- the copy is one more frame, and the only old one that the run may extend
  obtain ⟨c, h', hm, hsteps, -⟩ := hp.reaches hk
  have hle : h.size < h'.size := by
    have hle' := hsteps.size_le
    omega
  refine ⟨h', ⟨?_, hsteps.sound hp.sound, Nat.lt_trans hh.global_lt hle⟩, Nat.le_of_lt hle, ?_⟩
  · show h'.image = (Machine.runFor steps steps (s.load p)).2.store
    rw [hload, hm]
    rfl
  · intro f hf
    have hold : f < (h.alloc (h.contents s.globalFrame)).size := by
      rw [hsize]
      exact Nat.lt_succ_of_lt hf
    have hkeep := hsteps.contents_old (f := f) (Nat.le_refl _) hold fun hsome =>
      absurd (Option.some.inj hsome) (Nat.ne_of_gt hf)
    rw [hkeep, Heap.contents_alloc_of_lt hf]

end Represents

/-! ## Histories -/

/-- What is kept through a history: a heap whose image is the store, and one name for each global
value. -/
structure Kept (site : Site) (s : Session) : Prop where
  heap : ∃ h, Represents site h s
  aligned : s.globals.length = s.values.length

theorem represents_fresh (site : Site) (d : Dialect) : Represents site .fresh { dialect := d } := by
  refine ⟨Heap.image_fresh, ?_, Nat.zero_lt_one⟩
  intro f o ho
  rw [Heap.contents_fresh] at ho
  cases ho

theorem kept_fresh (site : Site) (d : Dialect) : Kept site { dialect := d } :=
  ⟨⟨.fresh, represents_fresh site d⟩, rfl⟩

/-- A treatment keeps programs scoped, for variables that meet a condition afterwards. -/
def Admits (treat : Program → Program) (site : Site) : Prop :=
  ∀ p globals, Program.Scoped .anywhere globals p → Program.Scoped site globals (treat p)

/-- Old frames that are as they were hold the global values that were there. -/
theorem Represents.values_of_contents {site : Site} {h h' : Heap} {s s' : Session}
    (hh : Represents site h s) (hh' : Represents site h' s') (hglobal : s'.globalFrame = s.globalFrame)
    (hkeep : ∀ f, f < h.size → h'.contents f = h.contents f) : s'.values = s.values := by
  rw [hh'.values_eq, hh.values_eq, hglobal, hkeep _ hh.global_lt]

theorem Kept.execute {site : Site} {s : Session} (hs : Kept site s) {p : Program}
    (hscoped : p.Scoped site s.globals) : Kept site (s.execute p).2 := by
  obtain ⟨h, hh⟩ := hs.heap
  cases hexecute : s.execute p with
  | mk result s' =>
    cases result with
    | ok r =>
      -- the names and the values grow by the same definitions
      obtain ⟨fuel, o, h', defs, -, -, hh', -, hglobals, hvalues⟩ := hh.execute_ok hscoped hexecute
      refine ⟨⟨h', hh'⟩, ?_⟩
      rw [hglobals, hvalues, List.length_append, List.length_append, List.length_map, List.length_map,
        hs.aligned]
    | error e =>
      obtain ⟨hglobals, hglobal, h', hh', -, hkeep⟩ := hh.execute_error hscoped hexecute
      refine ⟨⟨h', hh'⟩, ?_⟩
      rw [hglobals, hh.values_of_contents hh' hglobal hkeep]
      exact hs.aligned

/-- Every request keeps what a history keeps. -/
theorem Kept.answerBy {site : Site} {treat : Program → Program} (htreat : Admits treat site) {s : Session}
    (hs : Kept site s) (r : Request) : Kept site (s.answerBy treat r) := by
  cases r with
  | eval source =>
    rw [Session.answerBy]
    cases hp : s.program source with
    | error fault => exact hs
    | ok p => exact hs.execute (htreat p _ (Session.scoped_of_program hp))
  | limit steps =>
    obtain ⟨h, hh⟩ := hs.heap
    exact ⟨⟨h, hh.image, hh.sound, hh.global_lt⟩, hs.aligned⟩
  | machine source steps =>
    rw [Session.answerBy]
    cases hp : s.program source with
    | error fault => exact hs
    | ok p =>
      obtain ⟨h, hh⟩ := hs.heap
      obtain ⟨h', hh', -, hkeep⟩ := hh.run_load (htreat p _ (Session.scoped_of_program hp)) steps
      refine ⟨⟨h', hh'⟩, ?_⟩
      rw [hh.values_of_contents hh' rfl hkeep]
      exact hs.aligned

theorem kept_afterBy {site : Site} {treat : Program → Program} (htreat : Admits treat site) (d : Dialect)
    (history : List Request) : Kept site (Session.afterBy treat d history) :=
  List.foldlRecOn history _ (kept_fresh site d) fun _ hs r _ => hs.answerBy htreat r

/-- What a new session has, and every request keeps, is true of a session with a history. -/
theorem Session.Reachable.of_answer {motive : Session → Prop}
    (fresh : ∀ d : Dialect, motive { dialect := d })
    (answer : ∀ s r, motive s → motive (s.answer r)) {s : Session} (hs : s.Reachable) : motive s := by
  obtain ⟨d, history, rfl⟩ := hs
  exact List.foldlRecOn history _ (fresh d) fun s hs r _ => answer s r hs

theorem Session.Reachable.kept {s : Session} (hs : s.Reachable) : Kept .anywhere s := by
  obtain ⟨d, history, rfl⟩ := hs
  rw [Session.after_eq_afterBy]
  exact kept_afterBy (fun _ _ h => h) d history

end LispMachine
