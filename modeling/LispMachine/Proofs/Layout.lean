import LispMachine.Proofs.Acceptance
import LispMachine.Proofs.Mirror

/-!
# The layout of a source has no effect beyond spans

Blanks, comments and the switches of the reader matter to a source only as far as they decide which
tokens it has. Two sources with the same tokens compile to the same code, but for origins, and define the
same names; or both fail, with the same error but for the piece of the source that it shows
(`layout_never_influences_compilation`).
-/

namespace LispMachine

/-- Two outcomes of compilation that only the layout of the source tells apart. -/
inductive SameCompilation : Except Error Compiled → Except Error Compiled → Prop
  | ok {c c' : Compiled} (code : c.code.map Value.erase = c'.code.map Value.erase)
    (globals : c.globals = c'.globals) : SameCompilation (.ok c) (.ok c')
  | unbound (name : String) : SameCompilation (.error (.unbound name)) (.error (.unbound name))
  /-- The errors may show different pieces of their sources. -/
  | malformed {e e' : SyntaxError} (kind : e.kind = e'.kind) (message : e.message = e'.message)
    (expected : e.expected = e'.expected) (found : e.found = e'.found) :
    SameCompilation (.error (.malformed e)) (.error (.malformed e'))

/-- Faults for the same reason become errors that show different pieces of their sources at most. -/
theorem Fault.Mirrors.sameCompilation {e e' : Fault} (h : e.Mirrors e') (source source' : String) :
    SameCompilation (.error (e.toError source)) (.error (e'.toError source')) := by
  cases h with
  | malformed offset offset' c => exact .malformed rfl rfl rfl rfl
  | unbound name => exact .unbound name

/-- **The layout of a source has no effect beyond spans.** -/
theorem layout_never_influences_compilation {d d' : Dialect} {source source' : String} {ts ts' : List Token}
    (h : tokenize d source = .ok ts) (h' : tokenize d' source' = .ok ts')
    (hkinds : ts.map Token.kind = ts'.map Token.kind) (globals : List String) :
    SameCompilation (compile d globals source) (compile d' globals source') := by
  obtain ⟨stop, hends, htokens⟩ := exists_ending_of_tokenize h
  obtain ⟨stop', hends', htokens'⟩ := exists_ending_of_tokenize h'
  rw [htokens, htokens'] at hkinds
  unfold compile
  obtain ⟨p, p', hp, hp', hbare⟩ | ⟨e, e', he, he', hfaults⟩ :=
    Program.ofRun_mirrors globals (List.append_cancel_right hkinds) hends hends'
  · rw [hp, hp']
    refine .ok ?_ ?_
    · rw [Program.code_bare (Program.scoped_of_ofRun hp), Program.code_bare (Program.scoped_of_ofRun hp'),
        hbare]
    · rw [← p.definedNames_bare, hbare, p'.definedNames_bare]
  · rw [he, he']
    exact hfaults.sameCompilation source source'

/-- A source on one line and the same on three lines with a comment, with different switches; and two
layouts of a source that binds a name twice. -/
theorem layouts_of_two_sources :
    SameCompilation
      (compile { comments := false, generatedNames := true } ["a"] "(define (f x)(if x'(a)a))(f 1)")
      (compile {} ["a"] "( define ( f x ) ; the first form\n  (if x '(a) a) )\n(f 1)") ∧
    SameCompilation (compile {} [] "(lambda(x x)x)") (compile {} [] "(lambda\n  (x\tx) x)") := by
  have hfirst : tokenize { comments := false, generatedNames := true } "(define (f x)(if x'(a)a))(f 1)" =
      .ok ((TokenRun.ofText { comments := false, generatedNames := true }
        "(define (f x)(if x'(a)a))(f 1)").tokens ++ [.ending 30]) := by
    decide +kernel
  have hsecond : tokenize {} "( define ( f x ) ; the first form\n  (if x '(a) a) )\n(f 1)" =
      .ok ((TokenRun.ofText {} "( define ( f x ) ; the first form\n  (if x '(a) a) )\n(f 1)").tokens ++
        [.ending 57]) := by
    decide +kernel
  have htwice : tokenize {} "(lambda(x x)x)" =
      .ok ((TokenRun.ofText {} "(lambda(x x)x)").tokens ++ [.ending 14]) := by
    decide +kernel
  have htwice' : tokenize {} "(lambda\n  (x\tx) x)" =
      .ok ((TokenRun.ofText {} "(lambda\n  (x\tx) x)").tokens ++ [.ending 18]) := by
    decide +kernel
  exact ⟨layout_never_influences_compilation hfirst hsecond (by decide +kernel) ["a"],
    layout_never_influences_compilation htwice htwice' (by decide +kernel) []⟩

end LispMachine
