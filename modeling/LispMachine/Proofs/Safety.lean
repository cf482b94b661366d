import LispMachine.Proofs.Driving
import LispMachine.Proofs.History
import LispMachine.Proofs.Marks

/-!
# Compiled code never gets stuck

Whatever a session was asked before, a source that compiles runs without a fault of the machine. Each
of its steps finds the operands, the blocks and the saved continuations that its instruction needs, and
only the data of the program can make it fail. Each `LD` is executed in an environment with as many
frames as the scope of its variable has.

The second half is about the frames of the scope, of which code knows nothing. It is said by a twin: a
session with the same history whose programs are marked. The two sessions are the same but for origins
(`Session.erase_afterBy_mark`), so their machines go through the same steps, and the twin shows at every
`LD` the number of frames that the scope had.

Since only data make compiled code fail, it makes no difference to a session whether a run keeps what a
failing instruction had taken (`Session.Reachable.eval_eq_runWithin`).
-/

namespace LispMachine

namespace Machine
variable {m twin : Machine}

/-- Machines that are the same but for origins make the same steps. -/
theorem after_of_erase_eq (h : m.erase = twin.erase) {n : Nat} {last : Machine}
    (hlast : m.after n = some last) : ∃ last', twin.after n = some last' ∧ last.erase = last'.erase := by
  have hafter := after_erase n m
  rw [h, after_erase, hlast] at hafter
  obtain ⟨last', hlast', heq⟩ := Option.map_eq_some_iff.mp hafter
  exact ⟨last', hlast', heq.symm⟩

/-- An instruction that fails in a machine fails in its twin. -/
theorem next_of_erase_eq (h : m.erase = twin.erase) {e : RuntimeError} (he : m.step = .error e) :
    twin.next = .error e := by
  have hstep := step_erase m
  rw [h, step_erase, he] at hstep
  unfold step at hstep
  cases hnext : twin.next with
  | error e' =>
    rw [hnext] at hstep
    cases hstep
    rfl
  | ok move =>
    rw [hnext] at hstep
    cases move <;> cases hstep

/-- An `LD` in a machine is an `LD` in its twin. -/
theorem code_of_erase_eq (h : m.erase = twin.erase) {origin : Option Span} {rest : Code}
    (hcode : m.code = .op .ld origin :: rest) : ∃ origin' rest', twin.code = .op .ld origin' :: rest' := by
  have herased : m.code.map Value.erase = twin.code.map Value.erase := congrArg (·.registers.code) h
  rw [hcode] at herased
  cases htwin : twin.code with
  | nil =>
    rw [htwin] at herased
    cases herased
  | cons v rest' =>
    rw [htwin] at herased
    have hv : Value.op .ld none = v.erase := (List.cons.inj herased).1
    cases v with
    | op opcode origin' =>
      cases hv
      exact ⟨origin', rest', rfl⟩
    | _ => cases hv

/-- The runs of a machine do not get stuck: what fails is the data of the program, and every variable is
loaded in as many frames as its mark in a twin says. -/
structure Safe (m twin : Machine) : Prop where
  /-- The twin is the same machine but for origins. -/
  alike : m.erase = twin.erase
  /-- No step, however many came before it, fails for another reason than the data. -/
  steps : ∀ n m', m.after n = some m' → ∀ e, m'.step = .error e → e.isOfData
  /-- A run with a limit can only run out of steps as well. -/
  runs : ∀ limit e m', m.runWithLimit limit = (.error e, m') → e.isOfData ∨ e.isLimit
  /-- Where an `LD` is to be executed, the twin is after the same steps, and its mark is the number of
  frames of the environment. -/
  loads : ∀ n m', m.after n = some m' → ∀ origin rest, m'.code = .op .ld origin :: rest →
    ∃ t rest', twin.after n = some t ∧ m'.erase = t.erase ∧
      t.code = .op .ld (some (.point m'.env.length)) :: rest'

end Machine

/-! ## What failing programs leave

The runs of a session leave a failing machine as it was, where runs that take what a failing instruction takes
leave it without that. Neither touches the frames, and so a session cannot tell which of the two it has.
-/

namespace Session.Reachable
variable {s : Session}

/-- **An evaluation is the same with runs that take what a failing instruction takes.** -/
theorem eval_eq_runWithin (hs : s.Reachable) (source : String) :
    s.eval source =
      match s.compile source with
      | .error e => (.error e, s)
      | .ok compiled =>
        match (Machine.start compiled.code s.env s.store).runWithin s.stepLimit with
        | (.ok result, m) => (.ok result, { s with globals := compiled.globals, store := m.store })
        | (.error e, m) =>
          (.error (.runtime e), { s with store := m.store.truncate s.globalFrame s.values.length }) := by
  unfold Session.eval
  cases hcompile : s.compile source with
  | error e => rfl
  | ok compiled =>
    obtain ⟨p, hp, hcode, -⟩ := Session.compile_eq_ok hcompile
    obtain ⟨h, hh⟩ := hs.kept.heap
    have hstore : ∀ n, ((Machine.start compiled.code s.env s.store).runWithin n).2.store =
        ((Machine.start compiled.code s.env s.store).runWithLimit n).2.store := by
      rw [hcode, ← hh.image]
      exact Machine.runWithin_store fun _ _ hk _ herror =>
        (hh.loaded (Session.scoped_of_program hp)).isOfData_of_after hk herror
    simp only [Machine.runWithin_eq] at hstore ⊢
    -- the two runs have the same result, and by hstore the same frames
    specialize hstore s.stepLimit
    generalize (Machine.start compiled.code s.env s.store).runWithLimit s.stepLimit = out at hstore ⊢
    obtain ⟨result, m⟩ := out
    cases result with
    | ok r => rfl
    | error e => simp only [hstore]

/-- **What a machine over a copy leaves is the same with such a run.** -/
theorem answer_machine_eq_runWithin (hs : s.Reachable) (source : String) (steps : Nat) :
    s.answer (.machine source steps) =
      match s.machine source with
      | .ok m => { s with store := (m.runWithin steps).2.store }
      | .error _ => s := by
  rw [Session.answer, Session.machine_eq]
  cases hp : s.program source with
  | error fault => rfl
  | ok p =>
    obtain ⟨h, hh⟩ := hs.kept.heap
    obtain ⟨hloaded, hload⟩ := hh.load (Session.scoped_of_program hp)
    have hstore := Machine.runWithin_store (fun _ _ hk _ herror => hloaded.isOfData_of_after hk herror) steps
    rw [← hload] at hstore
    simp only [hstore]

end Session.Reachable

/-- **A marked program keeps its twins safe.** -/
theorem Loaded.safe {g : FrameId} {names : List String} {p : Program} {h : Heap}
    (hp : Loaded .marked g names p h) {m twin : Machine} (htwin : twin = .start p.code [g] h.image)
    (hm : m.erase = twin.erase) : m.Safe twin := by
  subst htwin
  have hsteps : ∀ n m', m.after n = some m' → ∀ e, m'.step = .error e → e.isOfData := by
    intro n m' hn e he
    obtain ⟨t, ht, herase⟩ := Machine.after_of_erase_eq hm hn
    exact hp.isOfData_of_after ht (Machine.next_of_erase_eq herase he)
  refine ⟨hm, hsteps, ?_, ?_⟩
  · intro limit e m' hrun
    have hends := Machine.runFor_ends limit limit m
    rw [← Machine.runWithLimit, hrun] at hends
    cases hends with
    | spent => exact .inr rfl
    | failed hlt hk herror =>
      refine .inl (hsteps _ _ hk e ?_)
      rw [Machine.step, herror]
  · intro n m' hn origin rest hcode
    obtain ⟨t, ht, herase⟩ := Machine.after_of_erase_eq hm hn
    obtain ⟨origin', rest', hcode'⟩ := Machine.code_of_erase_eq herase hcode
    have henv : m'.env = t.env := congrArg (·.registers.env) herase
    refine ⟨t, rest', ht, herase, ?_⟩
    -- the twin is at a stage of the simulation, which knows the scope of the instruction
    obtain ⟨c, h', rfl, -, hready⟩ := hp.reaches ht
    obtain ⟨span, rfl, hspan⟩ := hready.sited origin' rest' hcode'
    rw [hcode', hspan, henv]
    rfl

/-! ## Sessions without origins -/

namespace Session

/-- A session without origins. -/
def erase (s : Session) : Session := { s with store := s.store.erase }

variable {s s' : Session} {p p' : Program}

theorem program_erase (s : Session) (source : String) : s.erase.program source = s.program source := rfl

theorem values_erase (s : Session) : s.erase.values = s.values.map Value.erase :=
  Store.contents_erase s.store s.globalFrame

/-- What a run leaves of a session, in terms of the session and the code without origins. -/
theorem erase_execute_eq (s : Session) (p : Program) :
    (s.execute p).2.erase =
      match Machine.runFor s.erase.stepLimit s.erase.stepLimit
          (.start (p.code.map Value.erase) s.erase.env s.erase.store) with
      | (.ok _, m) => { s.erase with globals := s.erase.globals ++ p.definedNames, store := m.store }
      | (.error _, m) =>
        { s.erase with store := m.store.truncate s.erase.globalFrame s.erase.values.length } := by
  have hstart : Machine.start (p.code.map Value.erase) s.erase.env s.erase.store =
      (Machine.start p.code s.env s.store).erase := rfl
  have hlimit : s.erase.stepLimit = s.stepLimit := rfl
  rw [hstart, hlimit, Machine.runFor_erase, execute, values_erase, List.length_map,
    Machine.runWithLimit]
  cases Machine.runFor s.stepLimit s.stepLimit (Machine.start p.code s.env s.store) with
  | mk result m =>
    cases result with
    | ok r => rfl
    | error e =>
      show erase { s with store := m.store.truncate s.globalFrame s.values.length } = _
      rw [erase, Store.erase_truncate]
      rfl

/-- Programs that are the same but for origins leave the same of a session, but for origins. -/
theorem erase_execute (h : s.erase = s'.erase)
    (hcode : p.code.map Value.erase = p'.code.map Value.erase)
    (hnames : p.definedNames = p'.definedNames) : (s.execute p).2.erase = (s'.execute p').2.erase := by
  rw [erase_execute_eq, erase_execute_eq, h, hcode, hnames]

theorem erase_start (h : s.erase = s'.erase)
    (hcode : p.code.map Value.erase = p'.code.map Value.erase) :
    (Machine.start p.code s.env s.store).erase = (Machine.start p'.code s'.env s'.store).erase := by
  have hstart : ∀ (s : Session) (p : Program), (Machine.start p.code s.env s.store).erase =
      Machine.start (p.code.map Value.erase) s.erase.env s.erase.store := by
    intro s p
    rfl
  rw [hstart, hstart, h, hcode]

theorem erase_load (h : s.erase = s'.erase)
    (hcode : p.code.map Value.erase = p'.code.map Value.erase) :
    (s.load p).erase = (s'.load p').erase := by
  have hload : ∀ (s : Session) (p : Program), (s.load p).erase =
      Machine.start (p.code.map Value.erase) [s.erase.store.size]
        (s.erase.store.alloc s.erase.values) := by
    intro s p
    show Machine.start _ _ (s.store.alloc s.values).erase = Machine.start _ [s.store.erase.size] _
    rw [Store.erase_alloc, Store.size_erase, values_erase]
    rfl
  rw [hload, hload, h, hcode]

/-- One request leaves the same of a session and of its marked twin, but for origins. -/
theorem erase_answer (h : s.erase = s'.erase) (r : Request) :
    (s.answerBy Program.mark r).erase = (s'.answerBy id r).erase := by
  cases r with
  | eval source =>
    rw [answerBy, answerBy, ← program_erase s, h, program_erase]
    cases s'.program source with
    | error fault => exact h
    | ok p => exact erase_execute h p.code_mark p.definedNames_mark
  | limit steps => exact congrArg (fun s => { s with stepLimit := steps }) h
  | machine source steps =>
    rw [answerBy, answerBy, ← program_erase s, h, program_erase]
    cases s'.program source with
    | error fault => exact h
    | ok p =>
      have hstore : ((s.load p.mark).runWithLimit steps).2.store.erase =
          ((s'.load p).runWithLimit steps).2.store.erase := by
        have hrun := Machine.runFor_erase steps steps (s.load p.mark)
        rw [erase_load h p.code_mark, Machine.runFor_erase] at hrun
        exact (congrArg (·.2.store) hrun).symm
      have hkeep : ∀ (s : Session) (store : Store),
          erase { s with store := store } = { s.erase with store := store.erase } := by
        intro s store
        rfl
      show erase { s with store := _ } = erase { s' with store := _ }
      rw [hkeep, hkeep, h, hstore]
      rfl

/-- **A session and its marked twin stay the same but for origins.** -/
theorem erase_afterBy_mark (d : Dialect) (history : List Request) :
    (afterBy Program.mark d history).erase = (after d history).erase := by
  have hfold : ∀ s s' : Session, s.erase = s'.erase →
      (history.foldl (answerBy Program.mark) s).erase = (history.foldl (answerBy id) s').erase := by
    induction history with
    | nil => exact fun _ _ h => h
    | cons r rest ih => exact fun _ _ h => ih _ _ (erase_answer h r)
  rw [after_eq_afterBy]
  exact hfold _ _ rfl

end Session

/-- **Compiled code never gets stuck.** Whatever was asked of a session before, the runs of a source
that compiles fail only because of the data of the program, and load every variable in as many frames as
its scope had. This holds of the run that evaluates the source and of the machine that the session gives
for it. -/
theorem compiled_code_is_never_stuck (d : Dialect) (history : List Request) (source : String)
    (compiled : Compiled) (hcompile : (Session.after d history).compile source = .ok compiled) :
    ∃ p, (Session.after d history).program source = .ok p ∧
      p.mark.Scoped .marked (Session.after d history).globals ∧
      Machine.Safe
        (.start compiled.code (Session.after d history).env (Session.after d history).store)
        (.start p.mark.code (Session.afterBy Program.mark d history).env
          (Session.afterBy Program.mark d history).store) ∧
      ∃ m, (Session.after d history).machine source = .ok m ∧
        m.Safe ((Session.afterBy Program.mark d history).load p.mark) := by
  obtain ⟨p, hp, hcode, -⟩ := Session.compile_eq_ok hcompile
  have hmachine : (Session.after d history).machine source = .ok ((Session.after d history).load p) := by
    rw [Session.machine_eq, hp]
  have hscoped := p.scoped_mark _ (Session.scoped_of_program hp)
  have htwin := Session.erase_afterBy_mark d history
  obtain ⟨h, hh⟩ := (kept_afterBy Program.scoped_mark d history).heap
  -- from here on only what the two sessions share is needed: their erasure
  generalize Session.after d history = s at *
  generalize Session.afterBy Program.mark d history = twin at *
  have hscoped' : p.mark.Scoped .marked twin.erase.globals := by
    rw [htwin]
    exact hscoped
  refine ⟨p, hp, hscoped, ?_, s.load p, hmachine, ?_⟩
  · have hstart : Machine.start p.mark.code twin.env twin.store =
        .start p.mark.code [twin.globalFrame] h.image := by
      rw [hh.image]
      rfl
    rw [hcode]
    exact (hh.loaded hscoped').safe hstart (Session.erase_start htwin.symm p.code_mark.symm)
  · obtain ⟨hloaded, hload⟩ := hh.load hscoped'
    exact hloaded.safe hload (Session.erase_load htwin.symm p.code_mark.symm)

/-- A function from an earlier program gives a closure that is called inside a `let` and a `letrec`,
after a program that ran out of steps. -/
theorem called_closures_are_never_stuck :
    ∃ (history : List Request) (compiled : Compiled),
      history = [.eval "(define (f n) (lambda (k) (+ n k)))", .limit 40,
        .eval "(letrec ((g (lambda (n) (g n)))) (g 1))", .limit 100] ∧
      (Session.after {} history).compile "(letrec ((h (lambda (n) (let ((m (f n))) (m n))))) (h 4))" =
        .ok compiled ∧
      ∃ p, (Session.after {} history).program
          "(letrec ((h (lambda (n) (let ((m (f n))) (m n))))) (h 4))" = .ok p ∧
        p.mark.Scoped .marked (Session.after {} history).globals ∧
        Machine.Safe
          (.start compiled.code (Session.after {} history).env (Session.after {} history).store)
          (.start p.mark.code (Session.afterBy Program.mark {} history).env
            (Session.afterBy Program.mark {} history).store) ∧
        ∃ m, (Session.after {} history).machine
            "(letrec ((h (lambda (n) (let ((m (f n))) (m n))))) (h 4))" = .ok m ∧
          m.Safe ((Session.afterBy Program.mark {} history).load p.mark) := by
  let history : List Request := [.eval "(define (f n) (lambda (k) (+ n k)))", .limit 40,
    .eval "(letrec ((g (lambda (n) (g n)))) (g 1))", .limit 100]
  let source := "(letrec ((h (lambda (n) (let ((m (f n))) (m n))))) (h 4))"
  have hok : ((Session.after {} history).compile source).isOk = true := by decide +kernel
  cases hcompile : (Session.after {} history).compile source with
  | error e =>
    rw [hcompile] at hok
    cases hok
  | ok compiled =>
    exact ⟨history, compiled, rfl, hcompile,
      compiled_code_is_never_stuck {} history source compiled hcompile⟩

end LispMachine
