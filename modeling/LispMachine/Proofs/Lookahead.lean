import LispMachine.Proofs.Primitive
import LispMachine.Proofs.Reading

/-!
# Reading ahead

The names of a `letrec` must be known before its initialisers are read, and so they are found by a search
that skips the initialisers. The search knows nothing of forms: it counts parentheses, and takes marks
together with what follows them. That it stops where the readers stop is a fact about how each form is
spelled (`Expr.skips`), and about the readers that they take no token but those of their form
(`readers_sound`).
-/

namespace LispMachine

open Read

/-- **Reading ahead sees what is then read.** In front of bindings that can be read, in whatever scope, the
search finds their names in their order and takes nothing. And a form that can be read is skipped to the
same place by the reader that does not read it. -/
theorem reading_ahead_sees_what_is_read (level : Nat) (scope : Scope) (f f' : Feed) :
    (∀ form bindings, readBindings (readers level) scope form f = .ok (bindings, f') →
      bindingNames f = .ok (bindings.map (·.1), f)) ∧
    (∀ blame e, (readers level).form blame scope f = .ok (e, f') → skipDatum f = .ok ((), f')) := by
  have hsound := readers_sound level
  constructor
  · intro form bindings hread
    obtain ⟨htakes, -⟩ := readBindings_eq_ok hsound hread
    exact bindingNames_eq htakes
  · intro blame e hread
    obtain ⟨htakes, -⟩ := hsound.form hread
    exact htakes.skipDatum_eq e.skips

/-- What stands behind a `letrec`: two bindings and a body, with every mark that there is. -/
def markedBindings : Feed :=
  .ofRun (.ofText {} "((f (lambda (n) '(n ,f))) (g `(1 ,(f 2)))) `(,(g 'f) ',g))")

theorem marked_bindings_are_seen :
    ∃ scope bindings behind e last, scope = ({ globals := [] } : Scope).push ["f", "g"] ∧
      readBindings (readers 63) scope .letrec markedBindings = .ok (bindings, behind) ∧
      bindingNames markedBindings = .ok (["f", "g"], markedBindings) ∧
      (readers 63).form 0 scope behind = .ok (e, last) ∧ skipDatum behind = .ok ((), last) := by
  let scope : Scope := ({ globals := [] } : Scope).push ["f", "g"]
  have hreads : (readBindings (readers 63) scope .letrec markedBindings).toOption.any fun r =>
      r.1.map (·.1) = ["f", "g"] ∧ ((readers 63).form 0 scope r.2).isOk := by
    decide +kernel
  obtain ⟨⟨bindings, behind⟩, hbindings, htest⟩ := Except.exists_of_any hreads
  obtain ⟨hfound, hok⟩ := of_decide_eq_true htest
  obtain ⟨⟨e, last⟩, hform⟩ := Except.exists_of_isOk hok
  have hnames := (reading_ahead_sees_what_is_read 63 scope markedBindings behind).1 _ _ hbindings
  have hskip := (reading_ahead_sees_what_is_read 63 scope behind last).2 _ _ hform
  rw [hfound] at hnames
  exact ⟨scope, bindings, behind, e, last, rfl, hbindings, hnames, hform, hskip⟩

end LispMachine
