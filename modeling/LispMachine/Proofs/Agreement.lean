import LispMachine.Proofs.Programs

/-!
# The machine and the meaning agree

For a program that is loaded over a heap, the machine and the evaluator come to the same end
(`Loaded.agrees`). The machine halts with a value, under some limit on its steps, if and only if the
evaluator gives the object of that value with some fuel; and it stops with an error of the program if
and only if the evaluator fails with that error. What neither comes to an end of is the same as well:
fuel without end means steps without end.

From the evaluator to the machine, this is the simulation at its end. The way back needs no second
simulation: a machine that is stuck after some steps is at the end of a simulation with more fuel than
it has made steps (`Loaded.eval_of_stuck`), as steps come to one stuck machine only.
-/

namespace LispMachine

/-- Whether an error says that the steps of a run were spent. -/
def RuntimeError.isLimit : RuntimeError → Bool
  | stepLimitExceeded _ => true
  | _ => false

/-- The runs of a machine agree with what a program means, fuel by fuel. -/
structure Agrees (m : Machine) (meaning : Nat → Except Stop (Option Object × Heap)) : Prop where
  /-- The machine halts with a result if and only if the evaluator gives it, and they leave the same
  frames. -/
  halts : ∀ (r : Option Value) (store : Store),
    (∃ limit m', m.runWithLimit limit = (.ok r, m') ∧ m'.store = store) ↔
    ∃ fuel o h, meaning fuel = .ok (o, h) ∧ o.map Object.image = r ∧ h.image = store
  /-- The machine stops with an error if and only if the evaluator fails with it. -/
  stops : ∀ e : RuntimeError, ¬ e.isLimit →
    ((∃ limit m', m.runWithLimit limit = (.error e, m')) ↔ ∃ fuel, meaning fuel = .error (.failed e))
  /-- The evaluator is never at a loss what an expression means. -/
  sensible : ∀ fuel, meaning fuel ≠ .error .senseless

/-- A program over a heap, whose names are those of the global frame. -/
structure Loaded (site : Site) (g : FrameId) (names : List String) (p : Program) (h : Heap) : Prop where
  sound : h.Sound site
  global_lt : g < h.size
  isScoped : p.Scoped site names

/-- The setting of a program over a heap: all frames of the heap are older than the run. -/
def Setting.over (site : Site) (g : FrameId) (h : Heap) : Setting := ⟨site, h.size, some g⟩

namespace Loaded
variable {site : Site} {g : FrameId} {names : List String} {p : Program} {h : Heap}

theorem fits (hp : Loaded site g names p h) : Fits (.over site g h) [⟨names, g⟩] h := by
  refine ⟨hp.sound, Nat.le_refl _, ?_⟩
  intro f hf
  obtain rfl := List.mem_singleton.mp hf
  exact hp.global_lt

theorem simulates (hp : Loaded site g names p h) (fuel : Nat) :
    Simulates (.over site g h) fuel (p.eval fuel g names) (p.entry g) h (Program.exit g)
      (fun _ _ => True) :=
  Program.simulates rfl hp.isScoped hp.fits fuel

/-- Every machine that a run comes to is one of a stage. -/
theorem reaches (hp : Loaded site g names p h) {n : Nat} {m : Machine}
    (hafter : (Machine.start p.code [g] h.image).after n = some m) :
    ∃ c h', m = c.machine h' n ∧ Steps (.over site g h) n (p.entry g) h c h' ∧
      Ready (.over site g h) c h' :=
  Simulates.reaches hp.simulates (fun _ => rfl) hafter

/-- However many steps a program makes, it is because of the data if the next one fails. -/
theorem isOfData_of_after (hp : Loaded site g names p h) {n : Nat} {m : Machine}
    (hafter : (Machine.start p.code [g] h.image).after n = some m) {e : RuntimeError}
    (herror : m.next = .error e) : e.isOfData := by
  obtain ⟨c, h', rfl, -, hready⟩ := hp.reaches hafter
  exact hready.isOfData e herror

/-- A result of the evaluator is where the machine halts. -/
theorem halts_of_eval (hp : Loaded site g names p h) {fuel : Nat} {o : Option Object} {h' : Heap}
    (heval : p.eval fuel g names h = .ok (o, h')) :
    ∃ k, (Machine.start p.code [g] h.image).after k = some ((Program.exit g o).machine h' k) := by
  have hsim := hp.simulates fuel
  unfold Simulates at hsim
  rw [heval] at hsim
  obtain ⟨⟨k, hk⟩, -⟩ := hsim
  have hafter := hk.after 0
  rw [Nat.zero_add] at hafter
  exact ⟨k, hafter⟩

/-- An error of the evaluator is where the machine fails. -/
theorem fails_of_eval (hp : Loaded site g names p h) {fuel : Nat} {e : RuntimeError}
    (heval : p.eval fuel g names h = .error (.failed e)) :
    ∃ k m, (Machine.start p.code [g] h.image).after k = some m ∧ m.next = .error e ∧ e.isOfData := by
  have hsim := hp.simulates fuel
  unfold Simulates at hsim
  rw [heval] at hsim
  obtain ⟨k, c, h', hk, hfails⟩ := hsim
  exact ⟨k, _, hk.after 0, hfails.next, hfails.isOfData⟩

theorem sound_of_eval (hp : Loaded site g names p h) {fuel : Nat} {o : Option Object} {h' : Heap}
    (heval : p.eval fuel g names h = .ok (o, h')) : h'.Sound site ∧ h.size ≤ h'.size := by
  have hsim := hp.simulates fuel
  unfold Simulates at hsim
  rw [heval] at hsim
  obtain ⟨⟨k, hk⟩, hs, -⟩ := hsim
  exact ⟨hs, hk.size_le⟩

theorem eval_ne_senseless (hp : Loaded site g names p h) (fuel : Nat) :
    p.eval fuel g names h ≠ .error .senseless := by
  intro heval
  have hsim := hp.simulates fuel
  unfold Simulates at hsim
  rw [heval] at hsim
  exact hsim

/-- A machine that makes no more steps is where the evaluator comes to an end, given more fuel than the
machine has made steps. -/
theorem eval_of_stuck (hp : Loaded site g names p h) {n : Nat} {m : Machine}
    (hn : (Machine.start p.code [g] h.image).after n = some m) (hstuck : m.Stuck) :
    (∃ o h', p.eval (n + 1) g names h = .ok (o, h') ∧ m = (Program.exit g o).machine h' n) ∨
    ∃ e, p.eval (n + 1) g names h = .error (.failed e) ∧ m.next = .error e := by
  cases heval : p.eval (n + 1) g names h with
  | ok result =>
    obtain ⟨k, hk⟩ := hp.halts_of_eval heval
    obtain ⟨rfl, rfl⟩ := Machine.eq_of_stuck hk (Machine.stuck_of_isHalted rfl) hn hstuck
    exact .inl ⟨result.1, result.2, rfl, rfl⟩
  | error stop =>
    cases stop with
    | failed e =>
      obtain ⟨k, m', hk, hnext, -⟩ := hp.fails_of_eval heval
      obtain ⟨-, rfl⟩ := Machine.eq_of_stuck hk (Machine.stuck_of_error hnext) hn hstuck
      exact .inr ⟨e, rfl, hnext⟩
    | exhausted =>
      have hsim := hp.simulates (n + 1)
      unfold Simulates at hsim
      rw [heval] at hsim
      obtain ⟨k, c, h', hle, hk⟩ := hsim
      -- fuel that runs out stands for more steps than the machine can make
      have hkn := Machine.le_of_stuck hn hstuck (hk.after 0)
      omega
    | senseless => exact absurd heval (hp.eval_ne_senseless (n + 1))

theorem top_exit (g : FrameId) (o : Option Object) (h : Heap) (steps : Nat) :
    ((Program.exit g o).machine h steps).top = o.map Object.image := by
  cases o <;> rfl

/-- A run that halts is an evaluation that gives the object of its result. -/
theorem eval_of_run (hp : Loaded site g names p h) {limit : Nat} {r : Option Value} {m : Machine}
    (hrun : (Machine.start p.code [g] h.image).runWithLimit limit = (.ok r, m)) :
    ∃ fuel o h', p.eval fuel g names h = .ok (o, h') ∧ o.map Object.image = r ∧ m.store = h'.image := by
  have hends := Machine.runFor_ends limit limit (Machine.start p.code [g] h.image)
  rw [← Machine.runWithLimit, hrun] at hends
  cases hends with
  | halted hle hk hhalt =>
    obtain ⟨o, h', heval, rfl⟩ | ⟨e, -, hnext⟩ := hp.eval_of_stuck hk (Machine.stuck_of_isHalted hhalt)
    · exact ⟨_, o, h', heval, (top_exit g o h' _).symm, rfl⟩
    · rw [Machine.next_of_isHalted hhalt] at hnext
      cases hnext

/-- A run that stops with an error, and not for want of steps, is an evaluation that fails with it. -/
theorem eval_of_run_error (hp : Loaded site g names p h) {limit : Nat} {e : RuntimeError} {m : Machine}
    (hrun : (Machine.start p.code [g] h.image).runWithLimit limit = (.error e, m))
    (hlimit : ¬ e.isLimit) : ∃ fuel, p.eval fuel g names h = .error (.failed e) := by
  have hends := Machine.runFor_ends limit limit (Machine.start p.code [g] h.image)
  rw [← Machine.runWithLimit, hrun] at hends
  cases hends with
  | spent => exact absurd rfl hlimit
  | failed hlt hk herror =>
    obtain ⟨o, h', -, rfl⟩ | ⟨e', heval, hnext⟩ := hp.eval_of_stuck hk (Machine.stuck_of_error herror)
    · rw [Machine.next_of_isHalted rfl] at herror
      cases herror
    · rw [herror] at hnext
      cases hnext
      exact ⟨_, heval⟩

/-- A run that halts leaves the store of the evaluation, whatever the fuel was. -/
theorem store_of_run (hp : Loaded site g names p h) {fuel : Nat} {o : Option Object} {h' : Heap}
    (heval : p.eval fuel g names h = .ok (o, h')) {limit : Nat} {r : Option Value} {m : Machine}
    (hrun : (Machine.start p.code [g] h.image).runWithLimit limit = (.ok r, m)) : m.store = h'.image := by
  obtain ⟨k, hk⟩ := hp.halts_of_eval heval
  have hends := Machine.runFor_ends limit limit (Machine.start p.code [g] h.image)
  rw [← Machine.runWithLimit, hrun] at hends
  cases hends with
  | halted hle hk' hhalt =>
    obtain ⟨-, rfl⟩ :=
      Machine.eq_of_stuck hk (Machine.stuck_of_isHalted rfl) hk' (Machine.stuck_of_isHalted hhalt)
    rfl

/-- What definitions leave in the global frame: their objects, behind what was there. -/
theorem contents_of_defines (hp : Loaded site g names p h) {fuel : Nat} {defs : List (String × Object)}
    {h' : Heap} (hdefs : Program.Defines (applyWith fuel) g names p h defs h') :
    h'.contents g = h.contents g ++ defs.map (·.2) := by
  have hfit := hp.fits
  have happly : Applies ⟨site, h.size, none⟩ fuel (applyWith fuel) := applies_applyWith fuel
  exact hdefs.contents_eq rfl happly hp.global_lt hp.isScoped ⟨hfit.sound, hfit.base_le, hfit.lt_size⟩

/-- **Machine and meaning agree on every program.** -/
theorem agrees (hp : Loaded site g names p h) :
    Agrees (Machine.start p.code [g] h.image) fun fuel => p.eval fuel g names h := by
  refine ⟨fun r store => ⟨?_, ?_⟩, fun e hlimit => ⟨?_, ?_⟩, hp.eval_ne_senseless⟩
  · rintro ⟨limit, m, hrun, rfl⟩
    obtain ⟨fuel, o, h', heval, hr, hstore⟩ := hp.eval_of_run hrun
    exact ⟨fuel, o, h', heval, hr, hstore.symm⟩
  · rintro ⟨fuel, o, h', heval, rfl, rfl⟩
    obtain ⟨k, hk⟩ := hp.halts_of_eval heval
    have hrun := Machine.runFor_of_after_isHalted k hk rfl (Nat.le_refl k)
    rw [top_exit] at hrun
    exact ⟨k, _, hrun, rfl⟩
  · rintro ⟨limit, m, hrun⟩
    exact hp.eval_of_run_error hrun hlimit
  · rintro ⟨fuel, heval⟩
    obtain ⟨k, m, hk, hnext, -⟩ := hp.fails_of_eval heval
    exact ⟨k + 1, m, Machine.runFor_of_after_error (k + 1) hk hnext (Nat.lt_succ_self k)⟩

end Loaded

end LispMachine
