import LispMachine.Proofs.Rollback
import LispMachine.Proofs.Settled

/-!
# Machines over a copy of the global frame

A machine that is asked of a session runs over a copy of the global frame. The copy is shallow: what the
machine defines goes to the copy, and functions of the session still look into the session's own frame.

The machine does not touch a frame of the session (`Represents.run_load`). And it does what an
evaluation of the same source would do, although it has two global frames where the evaluation has one.
The frame of the evaluation has two partners (`Session.Settled.twin`): the copy, as a whole, as both grow
together, and the session's own frame, as far as it has names. Functions of the session look no further
than that.
-/

namespace LispMachine

section
variable {s : Session}

/-- A machine over a copy leaves every frame that can be reached from the session as it was. -/
theorem Represents.load_keeps_reachable {h : Heap} (hh : Represents .anywhere h s) {p : Program}
    (hscoped : p.Scoped .anywhere s.globals) (steps : Nat) {f : FrameId}
    (hf : s.store.Reaches s.globalFrame f) :
    ((s.load p).runWithLimit steps).2.store.contents f = s.store.contents f := by
  obtain ⟨h', hh', -, hkeep⟩ := hh.run_load hscoped steps
  have himage : h'.image = ((s.load p).runWithLimit steps).2.store := hh'.image
  rw [← himage, ← hh.image, Heap.contents_image, Heap.contents_image, hkeep f (hh.lt_of_reaches hf)]

/-- A program over a copy of the global frame ends in the same way as in the session. -/
theorem Session.Settled.load_sameOutcome {live : FrameId → Prop} (hs : Settled s live)
    (haligned : s.globals.length = s.values.length)
    {p : Program} (hscoped : p.Scoped .anywhere s.globals) (limit : Nat) :
    SameOutcome ((Machine.start p.code s.env s.store).runWithLimit limit)
      ((s.load p).runWithLimit limit) := by
  have hlt : s.globalFrame < s.store.size := hs.lt_size _ hs.global
  have hext := Store.Extends.alloc hlt s.values
  have hcopy : ∀ f, f = s.store.size →
      f < (s.store.alloc s.values).size ∧ (s.store.alloc s.values).contents f = s.values := by
    rintro f rfl
    rw [Store.size_alloc, Store.contents_alloc, if_pos rfl]
    exact ⟨Nat.lt_succ_self _, rfl⟩
  have hmeets : ∀ k, (hs.twin hext hcopy).meets 0 k s.globalFrame s.store.size :=
    fun _ => .inl (.inl (.inr ⟨rfl, rfl⟩))
  -- the two global frames are partners as a whole, and neither has another partner of that kind
  have hdefines : (hs.twin hext hcopy).Defines s.globalFrame s.store.size := by
    refine ⟨hlt, (hcopy _ rfl).1, ?_⟩
    rintro k f₁ f₂ (⟨rfl, hf, hne⟩ | ⟨rfl, rfl⟩)
    · exact ⟨fun h => absurd h hne, fun h => absurd h (Nat.ne_of_lt (hs.lt_size f₁ hf))⟩
    · exact ⟨fun _ => rfl, fun _ => rfl⟩
  exact (Program.endTogether hscoped (fun k _ => hmeets k) (fun _ => hdefines)
    (hs.twin_storesAlike haligned hext hcopy) limit).sameOutcome

/-- Results and errors are mapped apart from each other. -/
theorem Except.mapError_map {ε ε' α β : Type} (f : ε → ε') (g : α → β) (x : Except ε α) :
    (x.mapError f).map g = (x.map g).mapError f := by
  cases x <;> rfl

/-- The result of an evaluation is the result of the run. -/
theorem Session.execute_fst (s : Session) (p : Program) :
    (s.execute p).1 =
      ((Machine.start p.code s.env s.store).runWithLimit s.stepLimit).1.mapError Error.runtime := by
  unfold Session.execute
  cases (Machine.start p.code s.env s.store).runWithLimit s.stepLimit with
  | mk result m => cases result <;> rfl

theorem Session.program_of_machine {source : String} {m : Machine} (h : s.machine source = .ok m) :
    ∃ p, s.program source = .ok p ∧ m = s.load p := by
  rw [Session.machine_eq] at h
  cases hp : s.program source with
  | error fault =>
    rw [hp] at h
    cases h
  | ok p =>
    rw [hp] at h
    cases h
    exact ⟨p, rfl, rfl⟩

end

/-- **A machine that is asked of a session is an isolated and faithful preview of an evaluation.** However
many steps it makes, the names, the environment and all frames that can be reached from it are what they
were. And under the limit of the session it ends as the evaluation of the source would: with the same
error or a result that is shown the same, after the same number of steps. -/
theorem machine_previews_eval (s : Session) (hs : s.Reachable) (source : String) (m : Machine)
    (hm : s.machine source = .ok m) :
    (∀ steps,
      (s.answer (.machine source steps)).store = (m.runWithLimit steps).2.store ∧
      (s.answer (.machine source steps)).globals = s.globals ∧
      (s.answer (.machine source steps)).env = s.env ∧
      ∀ f, ((m.runWithLimit steps).2.store.Reaches s.globalFrame f ↔ s.store.Reaches s.globalFrame f) ∧
        (s.store.Reaches s.globalFrame f →
          (m.runWithLimit steps).2.store.contents f = s.store.contents f)) ∧
    ((m.runWithLimit s.stepLimit).1.mapError Error.runtime).map (Option.map Value.shown) =
      (s.eval source).1.map (Option.map Value.shown) ∧
    (m.runWithLimit s.stepLimit).2.steps = s.stepsOf source := by
  obtain ⟨p, hp, rfl⟩ := Session.program_of_machine hm
  have hscoped := Session.scoped_of_program hp
  constructor
  · intro steps
    obtain ⟨h, hh⟩ := hs.kept.heap
    have hcontents := fun f => hh.load_keeps_reachable hscoped steps (f := f)
    have hanswer : s.answer (.machine source steps) =
        { s with store := ((s.load p).runWithLimit steps).2.store } := by
      rw [Session.answer, hm]
    rw [hanswer]
    -- what can be reached depends on the contents of what can be reached, and they are the same
    exact ⟨rfl, rfl, rfl, fun f => ⟨Store.reaches_congr hcontents, hcontents f⟩⟩
  · obtain ⟨live, hlive⟩ := hs.settled
    have hsame := hlive.load_sameOutcome hs.kept.aligned hscoped s.stepLimit
    have heval : (s.eval source).1 = (s.execute p).1 := by rw [Session.eval_eq, hp]
    have hstepsOf : s.stepsOf source =
        ((Machine.start p.code s.env s.store).runWithLimit s.stepLimit).2.steps := by
      rw [Session.stepsOf, hp]
    constructor
    · rw [heval, Session.execute_fst, Except.mapError_map, Except.mapError_map, hsame.result]
    · rw [hstepsOf, hsame.steps]

/-- A machine that defines a name of the session again, and calls a function of the session that uses the
old definition. -/
theorem redefinition_is_previewed :
    ∃ (s : Session) (m : Machine),
      s = Session.after {} [.eval "(define n 10) (define (scale k) (* k n))"] ∧
      s.machine "(define n 1) (define (twice k) (scale (+ k n))) (cons (twice 1) null)" = .ok m ∧
      (m.runWithLimit s.stepLimit).1.isOk ∧
      (m.runWithLimit s.stepLimit).2.store.contents s.globalFrame = s.values ∧
      (m.runWithLimit s.stepLimit).2.steps =
        s.stepsOf "(define n 1) (define (twice k) (scale (+ k n))) (cons (twice 1) null)" := by
  let s := Session.after {} [.eval "(define n 10) (define (scale k) (* k n))"]
  let source := "(define n 1) (define (twice k) (scale (+ k n))) (cons (twice 1) null)"
  have hload : (s.machine source).isOk := by decide +kernel
  have hrun : ((s.machine source).toOption.map (·.runWithLimit s.stepLimit |>.1.isOk)) = some true := by
    decide +kernel
  obtain ⟨m, hm⟩ := Except.exists_of_isOk hload
  rw [hm] at hrun
  obtain ⟨hisolated, -, hsteps⟩ := machine_previews_eval s ⟨_, _, rfl⟩ source m hm
  obtain ⟨-, -, -, hframes⟩ := hisolated s.stepLimit
  exact ⟨s, m, rfl, hm, Option.some.inj hrun, (hframes s.globalFrame).2 .root, hsteps⟩

end LispMachine
