import LispMachine.Proofs.Acceptance
import LispMachine.Proofs.History

/-!
# Compiled programs do what they mean

The correctness of compilation, for programs on their own and in a session with any history. The code
of a source is run by the machine, and the tree that was read from the source is evaluated in a heap
whose image is the store of the session. Machine and evaluator come to the same end.

Evaluation knows nothing of addresses, of a stack or of code. It finds variables by their names, and
what a call comes back to is a matter of the recursion. Nor does the theorem rest on the reader for what
the program is: the tree that was read spells the source, and is well-formed after the names of the
session.
-/

namespace LispMachine

/-- **Compilation is correct.** A source that compiles, on its own or in a session with a history, is
read as the program of the language that it spells, and running its code agrees with evaluating the
program in the frames of the session. -/
theorem compiled_code_agrees_with_meaning :
    (∀ (d : Dialect) (source : String) (compiled : Compiled), compile d [] source = .ok compiled →
      ∃ p, Program.ofRun [] (.ofText d source) = .ok p ∧
        p.bare.Spells d source ∧ p.bare.WellFormed [] ∧
        Agrees (Machine.ofCode compiled.code) fun fuel => p.eval fuel 0 [] .fresh) ∧
    ∀ s : Session, s.Reachable → ∀ (source : String) (compiled : Compiled),
      s.compile source = .ok compiled →
      ∃ p, s.program source = .ok p ∧
        p.bare.Spells s.dialect source ∧ p.bare.WellFormed s.globals ∧
        (∃ h, Represents .anywhere h s) ∧
        ∀ h, Represents .anywhere h s →
          Agrees (Machine.start compiled.code s.env s.store) fun fuel =>
            p.eval fuel s.globalFrame s.globals h := by
  constructor
  · intro d source compiled hcompile
    obtain ⟨p, hp, hcode, -⟩ := Session.compile_eq_ok (s := { dialect := d }) hcompile
    have hloaded := (represents_fresh .anywhere d).loaded (Session.scoped_of_program hp)
    have hagrees := hloaded.agrees
    rw [Heap.image_fresh, ← hcode] at hagrees
    obtain ⟨hspells, hwf⟩ := Program.spells_of_ofRun hp
    exact ⟨p, hp, hspells, hwf, hagrees⟩
  · intro s hs source compiled hcompile
    obtain ⟨p, hp, hcode, -⟩ := Session.compile_eq_ok hcompile
    obtain ⟨hspells, hwf⟩ := Program.spells_of_ofRun hp
    refine ⟨p, hp, hspells, hwf, hs.kept.heap, ?_⟩
    intro h hh
    have hloaded := hh.loaded (Session.scoped_of_program hp)
    have hagrees := hloaded.agrees
    rw [hh.image, ← hcode] at hagrees
    exact hagrees

/-- A recursive function that a session defines, applied in a later program, after a program that
failed. The program means the factorial of four. -/
theorem compiled_factorial_agrees_with_meaning :
    ∃ (s : Session) (compiled : Compiled),
      s = Session.after {} [.eval "(define (f n) (if (= n 0) 1 (* n (f (- n 1)))))", .eval "(car null)"] ∧
      s.compile "(letrec ((g (lambda (n) (f n)))) (g 4))" = .ok compiled ∧
      ∃ p, s.program "(letrec ((g (lambda (n) (f n)))) (g 4))" = .ok p ∧
        p.bare.Spells s.dialect "(letrec ((g (lambda (n) (f n)))) (g 4))" ∧ p.bare.WellFormed s.globals ∧
        (∃ h, Represents .anywhere h s) ∧
        ∀ h, Represents .anywhere h s →
          (Agrees (Machine.start compiled.code s.env s.store) fun fuel =>
            p.eval fuel s.globalFrame s.globals h) ∧
          ∃ fuel h', p.eval fuel s.globalFrame s.globals h = .ok (some (.number 24), h') := by
  let s := Session.after {} [.eval "(define (f n) (if (= n 0) 1 (* n (f (- n 1)))))", .eval "(car null)"]
  let source := "(letrec ((g (lambda (n) (f n)))) (g 4))"
  obtain ⟨compiled, hcompile, hrun⟩ : ∃ compiled, s.compile source = .ok compiled ∧
      ((Machine.start compiled.code s.env s.store).runWithLimit 200).1.toOption.any
        (·.any (·.number? = some 24)) := Except.exists_of_any (by decide +kernel)
  obtain ⟨r, hr, hnumber⟩ := Except.exists_of_any hrun
  obtain ⟨v, rfl, hv⟩ := (Option.any_eq_true _ _).mp hnumber
  obtain ⟨p, hp, hspells, hwf, hheap, hagrees⟩ :=
    compiled_code_agrees_with_meaning.2 s ⟨_, _, rfl⟩ source compiled hcompile
  refine ⟨s, compiled, rfl, hcompile, p, hp, hspells, hwf, hheap, fun h hh => ⟨hagrees h hh, ?_⟩⟩
  -- the run is computed, and the evaluator agrees with it for some fuel
  obtain ⟨fuel, o, h', heval, ho, -⟩ :=
    ((hagrees h hh).halts (some v) _).mp ⟨200, _, Prod.ext hr rfl, rfl⟩
  obtain ⟨o, rfl, rfl⟩ := Option.map_eq_some_iff.mp ho
  cases o with
  | number n =>
    cases of_decide_eq_true hv
    exact ⟨fuel, h', heval⟩
  | _ => cases of_decide_eq_true hv

end LispMachine
