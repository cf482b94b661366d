import LispMachine.Proofs.Pairing
import LispMachine.Proofs.Running

/-!
# Two runs in lockstep

The same code, executed in two stores that are alike and in chains that are alike, does the same in both
runs: instruction by instruction, until both runs come to states in which they have objects that are
alike on their stacks, or to an instruction that fails with the same error (`matches_expr`). What else
is on the stacks, in the code behind and on the dumps may differ.

`Lockstep` says that two runs go together, as far as fuel reaches. It is composed like the runs are:
`Lockstep.bind` for code behind code, and `Lockstep.step` for an instruction. Fuel is spent by steps
alone, so that calls can be treated by induction on it.

Which objects are alike depends on which frames belong together, and more frames do so with every call. The
pairing of frames is fixed from the start, and a number says how many of them have been made
(`Pairing.meets`). Runs go on with larger numbers, and what was alike stays so (`Object.Alike.later`).
-/

namespace LispMachine

open Object (AlikeAll)

/-- The registers and the store of a machine. -/
structure State where
  registers : Registers
  store : Store

namespace State

/-- The machine in a state. -/
def machine (s : State) (steps : Nat) : Machine := { registers := s.registers, store := s.store, steps }

/-- Decides the next instruction. -/
def next (s : State) : Except RuntimeError (Option Move) := (s.machine 0).next

/-- The state that an instruction leads to. -/
def advance (s : State) (move : Move) : State := ⟨move.registers, s.store.apply move.effect⟩

end State

/-- Two runs go together, for as many steps as there is fuel, or until they come to states that belong
together. -/
inductive Lockstep (Post : State → State → Prop) : Nat → State → State → Prop
  | done {fuel : Nat} {s₁ s₂ : State} (h : Post s₁ s₂) : Lockstep Post fuel s₁ s₂
  /-- Both runs fail with the same error. -/
  | fail {fuel : Nat} {s₁ s₂ : State} {e : RuntimeError} (h₁ : s₁.next = .error e)
      (h₂ : s₂.next = .error e) : Lockstep Post fuel s₁ s₂
  | spent {s₁ s₂ : State} : Lockstep Post 0 s₁ s₂
  | step {fuel : Nat} {s₁ s₂ : State} {move₁ move₂ : Move} (h₁ : s₁.next = .ok (some move₁))
      (h₂ : s₂.next = .ok (some move₂)) (rest : Lockstep Post fuel (s₁.advance move₁) (s₂.advance move₂)) :
      Lockstep Post (fuel + 1) s₁ s₂

namespace Lockstep
variable {Post Post' : State → State → Prop} {fuel n : Nat} {s₁ s₂ : State}

/-- Runs that go together for more steps do so for less. -/
theorem less (h : Lockstep Post fuel s₁ s₂) (hle : n ≤ fuel) : Lockstep Post n s₁ s₂ := by
  induction h generalizing n with
  | done h => exact .done h
  | fail h₁ h₂ => exact .fail h₁ h₂
  | spent =>
    obtain rfl := Nat.le_zero.mp hle
    exact .spent
  | step h₁ h₂ _ ih =>
    cases n with
    | zero => exact .spent
    | succ n => exact .step h₁ h₂ (ih (Nat.le_of_succ_le_succ hle))

/-- One piece of code after the other. -/
theorem bind (h : Lockstep Post fuel s₁ s₂)
    (hnext : ∀ t₁ t₂, Post t₁ t₂ → Lockstep Post' fuel t₁ t₂) : Lockstep Post' fuel s₁ s₂ := by
  induction h with
  | done h => exact hnext _ _ h
  | fail h₁ h₂ => exact .fail h₁ h₂
  | spent => exact .spent
  | step h₁ h₂ _ ih =>
    exact .step h₁ h₂ (ih fun t₁ t₂ ht => (hnext t₁ t₂ ht).less (Nat.le_succ _))

theorem imp (h : Lockstep Post fuel s₁ s₂) (himp : ∀ t₁ t₂, Post t₁ t₂ → Post' t₁ t₂) :
    Lockstep Post' fuel s₁ s₂ :=
  h.bind fun t₁ t₂ ht => .done (himp t₁ t₂ ht)

section
variable {op : Opcode} {origin : Option Span} {S₁ S₂ : Stack} {E₁ E₂ : Environment} {C₁ C₂ : Code}
  {D₁ D₂ : List DumpEntry} {store₁ store₂ : Store}

/-- An instruction that both runs carry out, and that the fuel counts. -/
theorem of_perform {r₁ r₂ : Registers} {effect₁ effect₂ : Effect}
    (h₁ : perform op store₁ ⟨S₁, E₁, C₁, D₁⟩ = .ok (r₁, effect₁))
    (h₂ : perform op store₂ ⟨S₂, E₂, C₂, D₂⟩ = .ok (r₂, effect₂))
    (rest : Lockstep Post fuel ⟨r₁, store₁.apply effect₁⟩ ⟨r₂, store₂.apply effect₂⟩) :
    Lockstep Post (fuel + 1) ⟨⟨S₁, E₁, .op op origin :: C₁, D₁⟩, store₁⟩
      ⟨⟨S₂, E₂, .op op origin :: C₂, D₂⟩, store₂⟩ := by
  have hnext₁ : State.next ⟨⟨S₁, E₁, .op op origin :: C₁, D₁⟩, store₁⟩ =
      .ok (some ⟨op, origin, r₁, effect₁⟩) := by
    simp only [State.next, State.machine, Machine.next, h₁]
  have hnext₂ : State.next ⟨⟨S₂, E₂, .op op origin :: C₂, D₂⟩, store₂⟩ =
      .ok (some ⟨op, origin, r₂, effect₂⟩) := by
    simp only [State.next, State.machine, Machine.next, h₂]
  exact .step hnext₁ hnext₂ rest

/-- An instruction that both runs carry out. -/
theorem perform {r₁ r₂ : Registers} {effect₁ effect₂ : Effect}
    (h₁ : LispMachine.perform op store₁ ⟨S₁, E₁, C₁, D₁⟩ = .ok (r₁, effect₁))
    (h₂ : LispMachine.perform op store₂ ⟨S₂, E₂, C₂, D₂⟩ = .ok (r₂, effect₂))
    (rest : Lockstep Post fuel ⟨r₁, store₁.apply effect₁⟩ ⟨r₂, store₂.apply effect₂⟩) :
    Lockstep Post fuel ⟨⟨S₁, E₁, .op op origin :: C₁, D₁⟩, store₁⟩
      ⟨⟨S₂, E₂, .op op origin :: C₂, D₂⟩, store₂⟩ :=
  (of_perform h₁ h₂ rest).less (Nat.le_succ _)

/-- An instruction that fails in both runs. -/
theorem perform_error {e : RuntimeError}
    (h₁ : LispMachine.perform op store₁ ⟨S₁, E₁, C₁, D₁⟩ = .error e)
    (h₂ : LispMachine.perform op store₂ ⟨S₂, E₂, C₂, D₂⟩ = .error e) :
    Lockstep Post fuel ⟨⟨S₁, E₁, .op op origin :: C₁, D₁⟩, store₁⟩
      ⟨⟨S₂, E₂, .op op origin :: C₂, D₂⟩, store₂⟩ := by
  refine .fail (e := e) ?_ ?_
  · simp only [State.next, State.machine, Machine.next, h₁]
  · simp only [State.next, State.machine, Machine.next, h₂]

end

end Lockstep

/-! ## Code that leaves objects

As in the simulation, code is looked at on top of any stack and in front of any code, but now in two runs at
once, whose stacks and codes need not be the same.
-/

section
variable {w : Pairing}

/-- Two runs that have come to registers with one more object on their stacks: the objects are alike, and
the first is of some form. -/
inductive Pushed (w : Pairing) (n : Nat) (Form : Object → Prop) (r₁ r₂ : Registers) : State → State → Prop
  | intro {n' : Nat} {o₁ o₂ : Object} {store₁ store₂ : Store} (hle : n ≤ n')
      (stores : StoresAlike w n' store₁ store₂) (objects : o₁.Alike (w.meets n') o₂) (form : Form o₁) :
      Pushed w n Form r₁ r₂ ⟨⟨o₁.image :: r₁.stack, r₁.env, r₁.code, r₁.dump⟩, store₁⟩
        ⟨⟨o₂.image :: r₂.stack, r₂.env, r₂.code, r₂.dump⟩, store₂⟩

theorem Lockstep.earlier {fuel n n' : Nat} {Form : Object → Prop} {r₁ r₂ : Registers} {s₁ s₂ : State}
    (h : Lockstep (Pushed w n' Form r₁ r₂) fuel s₁ s₂) (hle : n ≤ n') :
    Lockstep (Pushed w n Form r₁ r₂) fuel s₁ s₂ := by
  refine h.imp ?_
  rintro t₁ t₂ ⟨hle', stores, objects, form⟩
  exact .intro (Nat.le_trans hle hle') stores objects form

/-- What goes on from two runs that have come to one more object on their stacks. -/
theorem Lockstep.then {fuel n : Nat} {Form Form' : Object → Prop} {r₁ r₂ r₁' r₂' : Registers}
    {s₁ s₂ : State} (h : Lockstep (Pushed w n Form r₁ r₂) fuel s₁ s₂)
    (hnext : ∀ {n' : Nat} {o₁ o₂ : Object} {store₁ store₂ : Store}, n ≤ n' →
      StoresAlike w n' store₁ store₂ → o₁.Alike (w.meets n') o₂ → Form o₁ →
      Lockstep (Pushed w n' Form' r₁' r₂') fuel
        ⟨⟨o₁.image :: r₁.stack, r₁.env, r₁.code, r₁.dump⟩, store₁⟩
        ⟨⟨o₂.image :: r₂.stack, r₂.env, r₂.code, r₂.dump⟩, store₂⟩) :
    Lockstep (Pushed w n Form' r₁' r₂') fuel s₁ s₂ := by
  refine h.bind ?_
  rintro t₁ t₂ ⟨hle, stores, objects, form⟩
  exact (hnext hle stores objects form).earlier hle

/-- Every object. -/
def AnyForm : Object → Prop := fun _ => True

/-- An object that is a list. -/
def ListForm : Object → Prop := fun o => ∃ items, o = .list items

/-- Code does the same in two chains: executed on any stacks and in front of any code, it leaves objects
that are alike. -/
def Matches (w : Pairing) (fuel : Nat) (Form : Object → Prop) (code : Code) (c₁ c₂ : Chain) : Prop :=
  ∀ (S₁ S₂ : Stack) (C₁ C₂ : Code) (D₁ D₂ : List DumpEntry) (n : Nat) (store₁ store₂ : Store),
    c₁.Alike (w.meets n) c₂ → StoresAlike w n store₁ store₂ →
    Lockstep (Pushed w n Form ⟨S₁, c₁.frames, C₁, D₁⟩ ⟨S₂, c₂.frames, C₂, D₂⟩) fuel
      ⟨⟨S₁, c₁.frames, code ++ C₁, D₁⟩, store₁⟩ ⟨⟨S₂, c₂.frames, code ++ C₂, D₂⟩, store₂⟩

/-- An instruction that does what a function on objects does. -/
theorem Lockstep.lift {fuel n : Nat} {Form : Object → Prop} {op : Opcode} {origin : Option Span}
    {S₁ S₂ S₁' S₂' : Stack} {E₁ E₂ : Environment} {C₁ C₂ : Code} {D₁ D₂ : List DumpEntry}
    {store₁ store₂ : Store} {t₁ t₂ : Except RuntimeError Object}
    (h₁ : LispMachine.perform op store₁ ⟨S₁', E₁, C₁, D₁⟩ =
      t₁.map fun o => (⟨o.image :: S₁, E₁, C₁, D₁⟩, .keep))
    (h₂ : LispMachine.perform op store₂ ⟨S₂', E₂, C₂, D₂⟩ =
      t₂.map fun o => (⟨o.image :: S₂, E₂, C₂, D₂⟩, .keep))
    (hs : StoresAlike w n store₁ store₂) (ht : ResultsAlike (w.meets n) t₁ t₂)
    (hform : ∀ o, t₁ = .ok o → Form o) :
    Lockstep (Pushed w n Form ⟨S₁, E₁, C₁, D₁⟩ ⟨S₂, E₂, C₂, D₂⟩) fuel
      ⟨⟨S₁', E₁, .op op origin :: C₁, D₁⟩, store₁⟩ ⟨⟨S₂', E₂, .op op origin :: C₂, D₂⟩, store₂⟩ := by
  cases ht with
  | ok objects => exact .perform h₁ h₂ (.done (.intro (Nat.le_refl n) hs objects (hform _ rfl)))
  | error e => exact .perform_error h₁ h₂

namespace Matches
variable {fuel : Nat} {c₁ c₂ : Chain} {span : Span}

theorem any {Form : Object → Prop} {code : Code} (h : Matches w fuel Form code c₁ c₂) :
    Matches w fuel AnyForm code c₁ c₂ := by
  intro S₁ S₂ C₁ C₂ D₁ D₂ n store₁ store₂ hc hs
  refine (h S₁ S₂ C₁ C₂ D₁ D₂ n store₁ store₂ hc hs).then fun _ hs' ho _ => ?_
  exact .done (.intro (Nat.le_refl _) hs' ho trivial)

/-- A constant. -/
theorem constant {o : Object} {v : Value} (hv : o.image = v) (ho : ∀ {meets}, o.Alike meets o) :
    Matches w fuel AnyForm (Code.constant span v) c₁ c₂ := by
  intro S₁ S₂ C₁ C₂ D₁ D₂ n store₁ store₂ hc hs
  subst hv
  exact .perform rfl rfl (.done (.intro (Nat.le_refl n) hs ho trivial))

/-- A variable, at the address that its name resolves to. -/
theorem load {name : String} {a : Address} (hres : Scope.resolveIn name c₁.names = some a)
    (hlen : c₁.names.length ≤ maxNesting) :
    Matches w fuel AnyForm
      [instr .ld span, .number (.ofIndex a.depth), .number (.ofIndex a.offset)] c₁ c₂ := by
  intro S₁ S₂ C₁ C₂ D₁ D₂ n store₁ store₂ hc hs
  have h₁ := perform_ld store₁ S₁ c₁.frames (.ofIndex a.depth) (.ofIndex a.offset) C₁ D₁
  have h₂ := perform_ld store₂ S₂ c₂.frames (.ofIndex a.depth) (.ofIndex a.offset) C₂ D₂
  rcases hs.load hc hres hlen with ⟨o₁, o₂, hload₁, hload₂, ho⟩ | ⟨e, hload₁, hload₂⟩
  · rw [hload₁] at h₁
    rw [hload₂] at h₂
    exact .perform h₁ h₂ (.done (.intro (Nat.le_refl n) hs ho trivial))
  · rw [hload₁] at h₁
    rw [hload₂] at h₂
    exact .perform_error h₁ h₂

/-- A primitive of one operand. -/
theorem unary {code : Code} (op : UnaryOp) (h : Matches w fuel AnyForm code c₁ c₂) :
    Matches w fuel AnyForm (code ++ [instr op.opcode span]) c₁ c₂ := by
  intro S₁ S₂ C₁ C₂ D₁ D₂ n store₁ store₂ hc hs
  rw [List.append_assoc, List.append_assoc]
  refine (h S₁ S₂ _ _ D₁ D₂ n store₁ store₂ hc hs).then fun _ hs' ho _ => ?_
  exact .lift (perform_unary _ _ _ _ _ op _) (perform_unary _ _ _ _ _ op _) hs' (op.apply_alike ho)
    fun _ _ => trivial

/-- A primitive of two operands, of which the right one is evaluated first. -/
theorem binary {left right : Code} (op : BinaryOp) (hleft : Matches w fuel AnyForm left c₁ c₂)
    (hright : Matches w fuel AnyForm right c₁ c₂) :
    Matches w fuel AnyForm (right ++ left ++ [instr op.opcode span]) c₁ c₂ := by
  intro S₁ S₂ C₁ C₂ D₁ D₂ n store₁ store₂ hc hs
  rw [List.append_assoc, List.append_assoc, List.append_assoc, List.append_assoc]
  refine (hright S₁ S₂ _ _ D₁ D₂ n store₁ store₂ hc hs).then fun hle hs₁ hr _ => ?_
  refine (hleft _ _ _ _ D₁ D₂ _ _ _ (hc.later hle) hs₁).then fun hle' hs₂ hl _ => ?_
  exact .lift (perform_binary _ _ _ _ _ op _ _) (perform_binary _ _ _ _ _ op _ _) hs₂
    (op.apply_alike hl (hr.later hle')) fun _ _ => trivial

/-- A branch: the code of one of two expressions, in front of the way back. -/
theorem branch {condition consequent alternative : Code}
    (hcondition : Matches w fuel AnyForm condition c₁ c₂)
    (hconsequent : Matches w fuel AnyForm consequent c₁ c₂)
    (halternative : Matches w fuel AnyForm alternative c₁ c₂) :
    Matches w fuel AnyForm
      (condition ++ [instr .sel span, Code.branch span consequent, Code.branch span alternative])
      c₁ c₂ := by
  intro S₁ S₂ C₁ C₂ D₁ D₂ n store₁ store₂ hc hs
  rw [List.append_assoc, List.append_assoc]
  refine (hcondition S₁ S₂ _ _ D₁ D₂ n store₁ store₂ hc hs).then
    fun {n' o₁ o₂ store₁' store₂'} hle hs' ho _ => ?_
  have hsel : ∀ (o : Object) (S : Stack) (E : Environment) (C : Code) (D : List DumpEntry)
      (store : Store), perform .sel store ⟨o.image :: S, E,
        [Code.branch span consequent, Code.branch span alternative] ++ C, D⟩ =
      .ok (⟨S, E, (if o.isTruthy then consequent else alternative) ++ [instr .join span],
        .join C :: D⟩, .keep) := by
    intro o S E C D store
    show Except.ok (_, _) = _
    rw [Object.isTruthy_image]
    cases o.isTruthy <;> rfl
  -- objects that are alike are true or false alike, and so both runs take the same branch
  have hsel₂ := hsel o₂ S₂ c₂.frames C₂ D₂ store₂'
  rw [← ho.isTruthy_eq] at hsel₂
  refine .perform (hsel o₁ S₁ c₁.frames C₁ D₁ store₁') hsel₂ ?_
  -- both branches end in the same `JOIN`, which gives the code behind them back
  have hbranch : Matches w fuel AnyForm (if o₁.isTruthy then consequent else alternative) c₁ c₂ := by
    cases o₁.isTruthy with
    | true => exact hconsequent
    | false => exact halternative
  refine (hbranch S₁ S₂ [instr .join span] [instr .join span] (.join C₁ :: D₁) (.join C₂ :: D₂) n' _ _
    (hc.later hle) hs').then fun _ hs'' hv _ => ?_
  exact .perform rfl rfl (.done (.intro (Nat.le_refl _) hs'' hv trivial))

/-- A function, with the frames that it was made in. -/
theorem function {parens : Parens} {params : List String} {body : List Expr} (hbody : body ≠ [])
    (hscoped : ScopedAll .anywhere (params :: c₁.names) body) :
    Matches w fuel AnyForm [instr .ldf span, Code.function parens (codes body)] c₁ c₂ := by
  intro S₁ S₂ C₁ C₂ D₁ D₂ n store₁ store₂ hc hs
  have ho : Object.Alike (w.meets n) (.closure parens params body c₁) (.closure parens params body c₂) :=
    .closure hbody hscoped hc
  exact .perform rfl rfl (.done (.intro (Nat.le_refl n) hs ho trivial))

/-- One expression after the other, for the value of the second. -/
theorem next {first second : Code} (hfirst : Matches w fuel AnyForm first c₁ c₂)
    (hsecond : Matches w fuel AnyForm second c₁ c₂) :
    Matches w fuel AnyForm (first ++ instr .pop span :: second) c₁ c₂ := by
  intro S₁ S₂ C₁ C₂ D₁ D₂ n store₁ store₂ hc hs
  rw [List.append_assoc, List.append_assoc]
  refine (hfirst S₁ S₂ _ _ D₁ D₂ n store₁ store₂ hc hs).then fun hle hs' _ _ => ?_
  exact .perform rfl rfl (hsecond S₁ S₂ C₁ C₂ D₁ D₂ _ _ _ (hc.later hle) hs')

/-- The list without items. -/
theorem nil : Matches w fuel ListForm (Code.list span []) c₁ c₂ := by
  intro S₁ S₂ C₁ C₂ D₁ D₂ n store₁ store₂ hc hs
  exact .perform rfl rfl (.done (.intro (Nat.le_refl n) hs (.list .nil) ⟨[], rfl⟩))

/-- A list with one more item in front, which is evaluated last. -/
theorem cons {items : List Code} {item : Code} (hitems : Matches w fuel ListForm (Code.list span items) c₁ c₂)
    (hitem : Matches w fuel AnyForm item c₁ c₂) :
    Matches w fuel ListForm (Code.list span (item :: items)) c₁ c₂ := by
  intro S₁ S₂ C₁ C₂ D₁ D₂ n store₁ store₂ hc hs
  rw [Code.list_cons, List.append_assoc, List.append_assoc, List.append_assoc, List.append_assoc]
  refine (hitems S₁ S₂ _ _ D₁ D₂ n store₁ store₂ hc hs).then fun hle hs₁ htail _ => ?_
  refine (hitem _ _ _ _ D₁ D₂ _ _ _ (hc.later hle) hs₁).then fun hle' hs₂ hhead _ => ?_
  -- what `CONS` leaves in front of a list is a list
  refine .lift (perform_binary _ _ _ _ _ .cons _ _) (perform_binary _ _ _ _ _ .cons _ _) hs₂
    (BinaryOp.apply_alike .cons hhead (htail.later hle')) fun o ho => ?_
  obtain ⟨objects, -, hprepend⟩ := Except.bind_eq_ok ho
  obtain ⟨objects', -, hpure⟩ := Except.bind_eq_ok hprepend
  cases hpure
  exact ⟨objects', rfl⟩

end Matches

/-! ## Calls

The bodies of two functions that are alike are one body, in chains that belong together. A call is itself a
step, and so leaves less fuel for the body: the induction is on the fuel.
-/

/-- Calls do the same in two runs: `AP` with functions that are alike and arguments that are alike leaves
objects that are alike. -/
def CallsMatch (w : Pairing) (fuel : Nat) : Prop :=
  ∀ (parens : Parens) (params : List String) (body : List Expr) (c₁ c₂ : Chain) (args₁ args₂ : List Object)
    (span : Span) (S₁ S₂ : Stack) (E₁ E₂ : Environment) (C₁ C₂ : Code) (D₁ D₂ : List DumpEntry) (n : Nat)
    (store₁ store₂ : Store), c₁.Alike (w.meets n) c₂ → StoresAlike w n store₁ store₂ → body ≠ [] →
    ScopedAll .anywhere (params :: c₁.names) body → AlikeAll (w.meets n) args₁ args₂ →
    Lockstep (Pushed w n AnyForm ⟨S₁, E₁, C₁, D₁⟩ ⟨S₂, E₂, C₂, D₂⟩) fuel
      ⟨⟨.closure (Code.body parens body) c₁.frames :: Object.image (.list args₁) :: S₁, E₁,
        instr .ap span :: C₁, D₁⟩, store₁⟩
      ⟨⟨.closure (Code.body parens body) c₂.frames :: Object.image (.list args₂) :: S₂, E₂,
        instr .ap span :: C₂, D₂⟩, store₂⟩

section
variable {fuel : Nat} {c₁ c₂ : Chain} {span : Span} {parens : Parens} {names : List String}

/-- `AP` starts the code of a closure in a new frame with the arguments. -/
theorem perform_ap (code : Code) (chain : Chain) (args : List Object) (S : Stack) (E : Environment)
    (C : Code) (D : List DumpEntry) (store : Store) :
    perform .ap store ⟨.closure code chain.frames :: Object.image (.list args) :: S, E, C, D⟩ =
      .ok (⟨[], store.size :: chain.frames, code, .call S E C :: D⟩,
        .alloc (args.map Object.image)) := by
  rw [Object.image_list]
  rfl

/-- Chains with the frames that both runs make next in front. -/
theorem Chain.Alike.push {n : Nat} (hc : c₁.Alike (w.meets n) c₂) :
    Chain.Alike (w.meets (n + 1)) (⟨names, w.base₁ + n⟩ :: c₁) (⟨names, w.base₂ + n⟩ :: c₂) :=
  .cons (.inl (w.same_next n _)) (hc.later (Nat.le_succ n))

/-- The code of a body leaves its value to the caller that was saved. -/
theorem Matches.returns {body : List Expr}
    (h : Matches w fuel AnyForm (Code.sequence parens.opening (codes body)) c₁ c₂) (S₁ S₂ : Stack)
    (E₁ E₂ : Environment) (C₁ C₂ : Code) (D₁ D₂ : List DumpEntry) {n : Nat} {store₁ store₂ : Store}
    (hc : c₁.Alike (w.meets n) c₂) (hs : StoresAlike w n store₁ store₂) :
    Lockstep (Pushed w n AnyForm ⟨S₁, E₁, C₁, D₁⟩ ⟨S₂, E₂, C₂, D₂⟩) fuel
      ⟨⟨[], c₁.frames, Code.body parens body, .call S₁ E₁ C₁ :: D₁⟩, store₁⟩
      ⟨⟨[], c₂.frames, Code.body parens body, .call S₂ E₂ C₂ :: D₂⟩, store₂⟩ := by
  refine (h [] [] [instr .rtn parens.span] [instr .rtn parens.span] (.call S₁ E₁ C₁ :: D₁)
    (.call S₂ E₂ C₂ :: D₂) n store₁ store₂ hc hs).then fun _ hs' ho _ => ?_
  exact .perform rfl rfl (.done (.intro (Nat.le_refl _) hs' ho trivial))

/-- A body that does the same in both runs, called with arguments that are alike. -/
theorem Matches.apply {body : List Expr} {n : Nat}
    (h : Matches w fuel AnyForm (Code.sequence parens.opening (codes body))
      (⟨names, w.base₁ + n⟩ :: c₁) (⟨names, w.base₂ + n⟩ :: c₂))
    (span : Span) (S₁ S₂ : Stack) (E₁ E₂ : Environment) (C₁ C₂ : Code) (D₁ D₂ : List DumpEntry) {store₁ store₂ : Store}
    {args₁ args₂ : List Object} (hc : c₁.Alike (w.meets n) c₂) (hs : StoresAlike w n store₁ store₂)
    (hargs : AlikeAll (w.meets n) args₁ args₂) :
    Lockstep (Pushed w n AnyForm ⟨S₁, E₁, C₁, D₁⟩ ⟨S₂, E₂, C₂, D₂⟩) (fuel + 1)
      ⟨⟨.closure (Code.body parens body) c₁.frames :: Object.image (.list args₁) :: S₁, E₁,
        instr .ap span :: C₁, D₁⟩, store₁⟩
      ⟨⟨.closure (Code.body parens body) c₂.frames :: Object.image (.list args₂) :: S₂, E₂,
        instr .ap span :: C₂, D₂⟩, store₂⟩ := by
  have h₁ := perform_ap (Code.body parens body) c₁ args₁ S₁ E₁ C₁ D₁ store₁
  have h₂ := perform_ap (Code.body parens body) c₂ args₂ S₂ E₂ C₂ D₂ store₂
  rw [hs.size₁] at h₁
  rw [hs.size₂] at h₂
  -- both runs make their next frames, and these belong together from now on
  have hbody := h.returns S₁ S₂ E₁ E₂ C₁ C₂ D₁ D₂ hc.push (hs.alloc hargs)
  exact .of_perform h₁ h₂ (hbody.earlier (Nat.le_succ n))

/-- `let`: the initialisers as a list, and a call of the body in the frame they make. -/
theorem Matches.letIn {inits : List Code} {body : List Expr}
    (hinits : Matches w fuel ListForm (Code.list span inits) c₁ c₂)
    (hbody : ∀ f₁ f₂, Matches w fuel AnyForm (Code.sequence parens.opening (codes body))
      (⟨names, f₁⟩ :: c₁) (⟨names, f₂⟩ :: c₂)) :
    Matches w fuel AnyForm
      (Code.list span inits ++ [instr .ldf span, Code.function parens (codes body), instr .ap span])
      c₁ c₂ := by
  intro S₁ S₂ C₁ C₂ D₁ D₂ n store₁ store₂ hc hs
  rw [List.append_assoc, List.append_assoc]
  refine (hinits S₁ S₂ _ _ D₁ D₂ n store₁ store₂ hc hs).then fun hle hs' ho hform => ?_
  obtain ⟨args, rfl⟩ := hform
  cases ho with
  | list hargs =>
    have hcall := (hbody _ _).apply span S₁ S₂ c₁.frames c₂.frames C₁ C₂ D₁ D₂ (hc.later hle) hs' hargs
    exact .perform rfl rfl (hcall.less (Nat.le_succ fuel))

/-- `letrec`: an empty frame, the initialisers as a list, and a body that starts when `RAP` has put them
into the frame. -/
theorem Matches.letrec {inits : List Code} {body : List Expr}
    (hinits : ∀ f₁ f₂, Matches w fuel ListForm (Code.list span inits)
      (⟨names, f₁⟩ :: c₁) (⟨names, f₂⟩ :: c₂))
    (hbody : ∀ f₁ f₂, Matches w fuel AnyForm (Code.sequence parens.opening (codes body))
      (⟨names, f₁⟩ :: c₁) (⟨names, f₂⟩ :: c₂)) :
    Matches w fuel AnyForm
      (instr .dum span :: Code.list span inits ++
        [instr .ldf span, Code.function parens (codes body), instr .rap span]) c₁ c₂ := by
  intro S₁ S₂ C₁ C₂ D₁ D₂ n store₁ store₂ hc hs
  have hdum : ∀ (S : Stack) (E : Environment) (C : Code) (D : List DumpEntry) (store : Store),
      perform .dum store ⟨S, E, C, D⟩ = .ok (⟨S, store.size :: E, C, D⟩, .alloc []) := fun _ _ _ _ _ => rfl
  have hdum₁ := hdum S₁ c₁.frames (Code.list span inits ++
    [instr .ldf span, Code.function parens (codes body), instr .rap span] ++ C₁) D₁ store₁
  have hdum₂ := hdum S₂ c₂.frames (Code.list span inits ++
    [instr .ldf span, Code.function parens (codes body), instr .rap span] ++ C₂) D₂ store₂
  rw [hs.size₁] at hdum₁
  rw [hs.size₂] at hdum₂
  refine .perform hdum₁ hdum₂ ?_
  have hs₁ : StoresAlike w (n + 1) (store₁.alloc []) (store₂.alloc []) := hs.alloc .nil
  rw [List.append_assoc, List.append_assoc]
  refine Lockstep.earlier ?_ (Nat.le_succ n)
  refine (hinits (w.base₁ + n) (w.base₂ + n) S₁ S₂ _ _ D₁ D₂ (n + 1) _ _ hc.push hs₁).then
    fun {n' o₁ o₂ store₁' store₂'} hle hs' ho hform => ?_
  obtain ⟨args, rfl⟩ := hform
  cases ho with
  | @list _ args' hargs =>
    have hrap : ∀ (chain : Chain) (args : List Object) (S : Stack) (f : FrameId) (C : Code)
        (D : List DumpEntry) (store : Store),
        perform .rap store ⟨.closure (Code.body parens body) (f :: chain.frames) ::
          Object.image (.list args) :: S, f :: chain.frames, C, D⟩ =
        .ok (⟨[], f :: chain.frames, Code.body parens body, .call S chain.frames C :: D⟩,
          .fill f (args.map Object.image)) := by
      intro chain args S f C D store
      rw [Object.image_list]
      rfl
    refine .perform rfl rfl (.perform (hrap c₁ args S₁ (w.base₁ + n) C₁ D₁ store₁')
      (hrap c₂ args' S₂ (w.base₂ + n) C₂ D₂ store₂') ?_)
    exact (hbody (w.base₁ + n) (w.base₂ + n)).returns S₁ S₂ c₁.frames c₂.frames C₁ C₂ D₁ D₂
      (hc.push.later hle) (hs'.fill hle hargs)

/-- A call: the arguments as a list, then the function, and then `AP`. -/
theorem Matches.call {args : List Code} {function : Code} (hcalls : CallsMatch w fuel)
    (hargs : Matches w fuel ListForm (Code.list span args) c₁ c₂)
    (hfunction : Matches w fuel AnyForm function c₁ c₂) :
    Matches w fuel AnyForm (Code.list span args ++ function ++ [instr .ap span]) c₁ c₂ := by
  intro S₁ S₂ C₁ C₂ D₁ D₂ n store₁ store₂ hc hs
  rw [List.append_assoc, List.append_assoc, List.append_assoc, List.append_assoc]
  refine (hargs S₁ S₂ _ _ D₁ D₂ n store₁ store₂ hc hs).then fun hle hs₁ ho hform => ?_
  obtain ⟨objects, rfl⟩ := hform
  refine (hfunction _ _ _ _ D₁ D₂ _ _ _ (hc.later hle) hs₁).then fun hle' hs₂ hf _ => ?_
  cases ho.later hle' with
  | list hobjects =>
    -- what cannot be called fails with the name of its kind, which is the same in both runs
    cases hf with
    | closure hbody hscoped hchain =>
      exact hcalls _ _ _ _ _ _ _ span S₁ S₂ c₁.frames c₂.frames C₁ C₂ D₁ D₂ _ _ _ hchain hs₂ hbody hscoped
        hobjects
    | list items =>
      cases items with
      | nil => exact .perform_error rfl rfl
      | cons _ _ => exact .perform_error rfl rfl
    | _ => exact .perform_error rfl rfl

end

/-! ## Expressions -/

section
variable {fuel : Nat} {c₁ c₂ : Chain}

mutual
/-- **The code of an expression does the same in two runs.** -/
theorem matches_expr (hcalls : CallsMatch w fuel) : ∀ (c₁ c₂ : Chain) (e : Expr),
    e.Scoped .anywhere c₁.names → Matches w fuel AnyForm e.code c₁ c₂
  | _, _, .literal _ l, _ => by
    rw [Expr.code]
    exact .constant (Object.image_ofLiteral l) (.ofLiteral l)
  | _, _, .null span, _ => by
    rw [Expr.code]
    exact .any .nil
  | _, _, .var _ _ _, ⟨hres, hlen, _⟩ => by
    rw [Expr.code]
    exact .load hres hlen
  | _, _, .quote _ d, _ | _, _, .quoteForm _ d, _ => by
    rw [Expr.code]
    exact .constant (Object.image_ofDatum d) (.ofDatum d)
  | c₁, c₂, .quasi span t, h => by
    rw [Expr.code]
    exact matches_template hcalls c₁ c₂ span t h
  | c₁, c₂, .unary _ op e, h => by
    rw [Expr.code]
    exact (matches_expr hcalls c₁ c₂ e h).unary op
  | c₁, c₂, .binary _ op l r, ⟨hl, hr⟩ => by
    rw [Expr.code]
    exact (matches_expr hcalls c₁ c₂ l hl).binary op (matches_expr hcalls c₁ c₂ r hr)
  | c₁, c₂, .ifElse _ c t e, ⟨hc, ht, he⟩ => by
    rw [Expr.code]
    exact (matches_expr hcalls c₁ c₂ c hc).branch (matches_expr hcalls c₁ c₂ t ht)
      (matches_expr hcalls c₁ c₂ e he)
  | _, _, .lambda _ _ _, ⟨hbody, h⟩ => by
    rw [Expr.code]
    exact .function hbody h
  | c₁, c₂, .letIn parens bindings body, ⟨hinits, hbody, h⟩ => by
    rw [Expr.code]
    exact (matches_inits hcalls c₁ c₂ parens.span bindings hinits).letIn fun f₁ f₂ =>
      matches_sequence hcalls (⟨bindings.map Prod.fst, f₁⟩ :: c₁) (⟨bindings.map Prod.fst, f₂⟩ :: c₂)
        parens.opening body hbody h
  | c₁, c₂, .letrec parens bindings body, ⟨hinits, hbody, h⟩ => by
    rw [Expr.code]
    exact .letrec
      (fun f₁ f₂ => matches_inits hcalls (⟨bindings.map Prod.fst, f₁⟩ :: c₁)
        (⟨bindings.map Prod.fst, f₂⟩ :: c₂) parens.span bindings hinits)
      fun f₁ f₂ => matches_sequence hcalls (⟨bindings.map Prod.fst, f₁⟩ :: c₁)
        (⟨bindings.map Prod.fst, f₂⟩ :: c₂) parens.opening body hbody h
  | c₁, c₂, .sequence parens forms, ⟨hforms, h⟩ => by
    rw [Expr.code]
    exact matches_sequence hcalls c₁ c₂ parens.span forms hforms h
  | c₁, c₂, .app parens f args, ⟨hf, hargs⟩ => by
    rw [Expr.code]
    exact .call hcalls (matches_args hcalls c₁ c₂ parens.span args hargs) (matches_expr hcalls c₁ c₂ f hf)
theorem matches_args (hcalls : CallsMatch w fuel) : ∀ (c₁ c₂ : Chain) (span : Span) (es : List Expr),
    ScopedAll .anywhere c₁.names es → Matches w fuel ListForm (Code.list span (codes es)) c₁ c₂
  | _, _, _, [], _ => by
    rw [codes]
    exact .nil
  | c₁, c₂, span, e :: es, ⟨h, hs⟩ => by
    rw [codes]
    exact (matches_args hcalls c₁ c₂ span es hs).cons (matches_expr hcalls c₁ c₂ e h)
theorem matches_inits (hcalls : CallsMatch w fuel) :
    ∀ (c₁ c₂ : Chain) (span : Span) (bindings : List (String × Expr)),
    ScopedInits .anywhere c₁.names bindings →
    Matches w fuel ListForm (Code.list span (initCodes bindings)) c₁ c₂
  | _, _, _, [], _ => by
    rw [initCodes]
    exact .nil
  | c₁, c₂, span, (_, e) :: rest, ⟨h, hs⟩ => by
    rw [initCodes]
    exact (matches_inits hcalls c₁ c₂ span rest hs).cons (matches_expr hcalls c₁ c₂ e h)
theorem matches_sequence (hcalls : CallsMatch w fuel) :
    ∀ (c₁ c₂ : Chain) (span : Span) (es : List Expr), es ≠ [] → ScopedAll .anywhere c₁.names es →
    Matches w fuel AnyForm (Code.sequence span (codes es)) c₁ c₂
  | _, _, _, [], hne, _ => absurd rfl hne
  | c₁, c₂, _, [e], _, ⟨h, _⟩ => by
    rw [codes, codes, Code.sequence]
    exact matches_expr hcalls c₁ c₂ e h
  | c₁, c₂, span, e :: next :: rest, _, ⟨h, hs⟩ => by
    rw [codes, codes, Code.sequence, ← codes]
    · exact (matches_expr hcalls c₁ c₂ e h).next
        (matches_sequence hcalls c₁ c₂ span (next :: rest) (List.cons_ne_nil _ _) hs)
    · exact fun hnil => nomatch hnil
theorem matches_template (hcalls : CallsMatch w fuel) :
    ∀ (c₁ c₂ : Chain) (span : Span) (t : Template), t.Scoped .anywhere c₁.names →
    Matches w fuel AnyForm (t.code span) c₁ c₂
  | c₁, c₂, _, .hole e, h => by
    rw [Template.code]
    exact matches_expr hcalls c₁ c₂ e h
  | _, _, _, .datum d, _ => by
    rw [Template.code]
    exact .constant (Object.image_ofDatum d) (.ofDatum d)
  | c₁, c₂, _, .list parens items, h => by
    rw [Template.code, Template.values?_eq]
    cases Template.data? items with
    | some ds =>
      refine .constant ?_ (.ofDatum (.list ds))
      rw [Object.ofDatum, Object.image_list, Object.image_ofData]
    | none => exact .any (matches_templates hcalls c₁ c₂ parens.span items h)
theorem matches_templates (hcalls : CallsMatch w fuel) :
    ∀ (c₁ c₂ : Chain) (span : Span) (ts : List Template), ScopedTemplates .anywhere c₁.names ts →
    Matches w fuel ListForm (Code.list span (templateCodes span ts)) c₁ c₂
  | _, _, _, [], _ => by
    rw [templateCodes]
    exact .nil
  | c₁, c₂, span, t :: ts, ⟨h, hs⟩ => by
    rw [templateCodes]
    exact (matches_templates hcalls c₁ c₂ span ts hs).cons (matches_template hcalls c₁ c₂ span t h)
end

end

/-- **Calls do the same in two runs, for any number of steps.** Each call takes a step before its body is
executed. -/
theorem callsMatch (w : Pairing) (fuel : Nat) : CallsMatch w fuel := by
  induction fuel with
  -- runs that may not make a step go together anyhow
  | zero =>
    intro parens params body c₁ c₂ args₁ args₂ span S₁ S₂ E₁ E₂ C₁ C₂ D₁ D₂ n store₁ store₂ hc hs hbody
      hscoped hargs
    exact .spent
  | succ fuel ih =>
    intro parens params body c₁ c₂ args₁ args₂ span S₁ S₂ E₁ E₂ C₁ C₂ D₁ D₂ n store₁ store₂ hc hs hbody
      hscoped hargs
    have hsequence := matches_sequence ih (⟨params, w.base₁ + n⟩ :: c₁) (⟨params, w.base₂ + n⟩ :: c₂)
      parens.opening body hbody hscoped
    exact hsequence.apply span S₁ S₂ E₁ E₂ C₁ C₂ D₁ D₂ hc hs hargs

end

end LispMachine
