import Mathlib.Data.List.Forall2
import LispMachine.Proofs.Running
import LispMachine.Proofs.Bindings

/-!
# Addresses find values

A name is resolved in a scope before the program runs, and its value is loaded from an environment while it
runs. The two meet when the environment holds a value for each name of the scope, frame for frame
(`Scope.Paired`). Then a name can be looked up without any address: in the innermost frame that binds it, the
last value that is paired with it (`Scope.valueOf?`).

The address of a name is the place where it stands (`Scope.resolveIn_eq_some_iff`). A paired environment has a
value at each such place (`Scope.Paired.exists_value`), and this is the value that `LD` pushes.
-/

namespace LispMachine

/-- An environment holds a value for each name of a scope: it has as many frames, and each frame has as many
values as there are names in the frame of the scope. -/
def Scope.Paired (s : Scope) (store : Store) (env : Environment) : Prop :=
  List.Forall₂ (fun names f => (store.contents f).length = names.length) s.frames env

/-- The value of a name, looked up by name: the newest value paired with it in the first frame that has one. -/
def Scope.valueOf? (s : Scope) (store : Store) (env : Environment) (name : String) : Option Value :=
  (List.zipWith (fun names f => names.zip (store.contents f)) s.frames env).findSome? (newest? name)

section
variable {s : Scope} {store : Store} {env : Environment} {name : String} {a : Address} {f : FrameId} {v : Value}
  {m : Machine} {depth offset : Number} {rest : Code} {origin : Option Span}

/-- What is paired with a name in one frame is the value at the place of its last occurrence. -/
theorem newest?_zip {names : List String} {values : Frame} (hlength : values.length = names.length) :
    newest? name (names.zip values) = (lastIndex? name names).bind (values[·]?) := by
  rw [Session.newest?_eq, List.map_fst_zip hlength.ge, List.map_snd_zip hlength.le]

/-- A name that is bound has a value at its address, and this is the value that is found by name. -/
theorem findSome?_newest? {frames : List (List String)}
    (h : List.Forall₂ (fun names f => (store.contents f).length = names.length) frames env) :
    (List.zipWith (fun names f => names.zip (store.contents f)) frames env).findSome? (newest? name) =
      (Scope.resolveIn name frames).bind fun a => env[a.depth]?.bind (store.get? · a.offset) := by
  induction h with
  | nil => rfl
  | @cons names f outer env hlength _ ih =>
    rw [List.zipWith_cons_cons, List.findSome?_cons, newest?_zip hlength, Scope.resolveIn]
    cases hlast : lastIndex? name names with
    | some offset =>
      -- the frame is as long as its names, so the place of the name is one of its values
      have hlt : offset < (store.contents f).length := hlength ▸ lastIndex?_lt hlast
      simp [Store.get?, List.getElem?_eq_getElem hlt]
    | none =>
      rw [ih]
      cases Scope.resolveIn name outer <;> rfl

/-- A paired environment has a value wherever a name stands. -/
theorem Scope.Paired.exists_value (h : s.Paired store env) (ha : s.resolve name = some a) :
    ∃ f v, env[a.depth]? = some f ∧ store.get? f a.offset = some v ∧ s.valueOf? store env name = some v := by
  obtain ⟨⟨names, hnames, hname, -⟩, -⟩ := Scope.resolveIn_eq_some_iff.mp ha
  obtain ⟨hdepth, hnames⟩ := List.getElem?_eq_some_iff.mp hnames
  obtain ⟨hoffset, -⟩ := List.getElem?_eq_some_iff.mp hname
  have hdepth' : a.depth < env.length := h.length_eq ▸ hdepth
  have hframe : env[a.depth]? = some env[a.depth] := List.getElem?_eq_getElem hdepth'
  have hlength : (store.contents env[a.depth]).length = names.length := hnames ▸ h.get hdepth hdepth'
  have hvalue : store.get? env[a.depth] a.offset = some (store.contents env[a.depth])[a.offset] :=
    List.getElem?_eq_getElem (hlength ▸ hoffset)
  refine ⟨_, _, hframe, hvalue, ?_⟩
  rw [Scope.resolve] at ha
  rw [Scope.valueOf?, findSome?_newest? h, ha, Option.bind_some, hframe, Option.bind_some, hvalue]

/-- What `LD` loads is pushed, and nothing else changes but the code. -/
theorem Machine.step_ld (hcode : m.code = .op .ld origin :: .number depth :: .number offset :: rest)
    (hload : m.store.load m.env depth offset = .ok v) :
    m.step = .ok (some ⟨{ m.registers with stack := v :: m.stack, code := rest }, m.store, m.steps + 1⟩) := by
  have hperform := perform_ld m.store m.stack m.env depth offset rest m.dump
  rw [hload] at hperform
  rw [step_of_code hcode]
  exact congrArg (Except.map _) hperform

end

/-- **Addresses find values.** For any scope, whatever pushes, pops and definitions led to it, and any environment
that holds a value for each of its names, frame for frame: a name is left unresolved exactly if no frame binds it,
and then it has no value either. Otherwise it is resolved as the place of its last occurrence in the innermost
frame that binds it, and a machine in that environment that executes `LD` with this address pushes the value
which stands there, the one that is found by name. -/
theorem resolved_names_load_their_values (s : Scope) (store : Store) (env : Environment)
    (hpaired : s.Paired store env) (name : String) :
    (s.resolve name = none ↔ ∀ names ∈ s.frames, name ∉ names) ∧
    (s.resolve name = none → s.valueOf? store env name = none) ∧
    ∀ a, s.resolve name = some a → Scope.StandsAt s.frames name a ∧
      ∃ f v, env[a.depth]? = some f ∧ (store.contents f)[a.offset]? = some v ∧
        s.valueOf? store env name = some v ∧
        ∀ (m : Machine) (origin : Option Span) (depth offset : Number) (rest : Code), m.env = env →
          m.store = store → depth.toInt = a.depth → offset.toInt = a.offset →
          m.code = .op .ld origin :: .number depth :: .number offset :: rest →
          m.step = .ok (some ⟨{ m.registers with stack := v :: m.stack, code := rest }, m.store, m.steps + 1⟩) := by
  refine ⟨Scope.resolveIn_eq_none_iff, fun hnone => ?_, fun a ha => ⟨Scope.resolveIn_eq_some_iff.mp ha, ?_⟩⟩
  · rw [Scope.resolve] at hnone
    rw [Scope.valueOf?, findSome?_newest? hpaired, hnone, Option.bind_none]
  · obtain ⟨f, v, hframe, hvalue, hfound⟩ := hpaired.exists_value ha
    refine ⟨f, v, hframe, hvalue, hfound, ?_⟩
    rintro m origin depth offset rest rfl rfl hdepth hoffset hcode
    refine Machine.step_ld hcode ?_
    rw [Store.load_of_toInt hdepth hoffset hframe, hvalue]

/-- A name that stands twice in the innermost frame and once in the global one, which was extended last. -/
theorem repeated_name_loads_its_last_value :
    ∃ (s : Scope) (m m' : Machine),
      s = ((((({} : Scope).define "z").push ["x", "y"]).push ["y", "z", "z"]).define "x") ∧
      s.Paired m.store m.env ∧ s.resolve "z" = some ⟨0, 2⟩ ∧ s.resolve "x" = some ⟨1, 0⟩ ∧
      m.code = [.op .ld none, .number 0, .number 2] ∧ m.step = .ok (some m') ∧ m'.stack = [.number 6] := by
  let s := (((({} : Scope).define "z").push ["x", "y"]).push ["y", "z", "z"]).define "x"
  let store : Store := ⟨#[[.number 0, .number 1], [.number 2, .number 3], [.number 4, .number 5, .number 6]]⟩
  let m := Machine.start [.op .ld none, .number 0, .number 2] [2, 1, 0] store
  have hpaired : s.Paired store [2, 1, 0] := .cons rfl (.cons rfl (.cons rfl .nil))
  have hlast : s.valueOf? store [2, 1, 0] "z" = some (.number 6) := by rfl
  obtain ⟨-, -, hbound⟩ := resolved_names_load_their_values s store [2, 1, 0] hpaired "z"
  obtain ⟨-, f, v, -, -, hfound, hload⟩ := hbound ⟨0, 2⟩ (by decide)
  cases Option.some.inj (hfound.symm.trans hlast)
  exact ⟨s, m, _, rfl, hpaired, by decide, by decide, rfl, hload m none 0 2 [] rfl rfl rfl rfl rfl, rfl⟩

end LispMachine
