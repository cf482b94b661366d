import LispMachine.Proofs.Lockstep
import LispMachine.Proofs.Programs

/-!
# Programs in two runs

A program that is run over two stores which are alike has the same outcome in both runs
(`Program.endTogether`, `EndTogether.sameOutcome`): both make the same number of steps, and they stop with
the same error or halt with results that are printed and inspected the same. This holds under any limit
on the steps.

The induction is on the forms of a program. Behind each form the two runs are in step again: both have
a value to drop, or both have added to their global frames (`Passed`).

The names of the program have to be paired in the two global frames. If the program defines something,
the global frames have to be free to grow as well (`Pairing.Defines`).
-/

namespace LispMachine

section
variable {w : Pairing} {fuel : Nat}

/-! ## Programs -/

/-- Two runs of a program that have come to their ends: both have left nothing, or objects that are
alike. -/
inductive Finished (w : Pairing) (g₁ g₂ : FrameId) : State → State → Prop
  | nothing {n : Nat} {store₁ store₂ : Store} (stores : StoresAlike w n store₁ store₂) :
      Finished w g₁ g₂ ⟨⟨[], [g₁], [], []⟩, store₁⟩ ⟨⟨[], [g₂], [], []⟩, store₂⟩
  | object {n : Nat} {o₁ o₂ : Object} {store₁ store₂ : Store} (stores : StoresAlike w n store₁ store₂)
      (objects : o₁.Alike (w.meets n) o₂) :
      Finished w g₁ g₂ ⟨⟨[o₁.image], [g₁], [], []⟩, store₁⟩ ⟨⟨[o₂.image], [g₂], [], []⟩, store₂⟩

theorem TopForm.matches_object {names : List String} {form : TopForm}
    (hscoped : form.Scoped .anywhere names) (g₁ g₂ : FrameId) :
    Matches w fuel AnyForm form.objectCode [⟨names ++ form.defined?.toList, g₁⟩]
      [⟨names ++ form.defined?.toList, g₂⟩] := by
  have hcalls := callsMatch w fuel
  cases form with
  | value span e =>
    have hnames : names ++ (TopForm.value span e).defined?.toList = names := List.append_nil names
    rw [hnames]
    exact matches_expr hcalls [⟨names, g₁⟩] [⟨names, g₂⟩] e hscoped
  | defineVariable parens name e =>
    exact matches_expr hcalls [⟨names ++ [name], g₁⟩] [⟨names ++ [name], g₂⟩] e hscoped
  | defineFunction parens name params body => exact .function hscoped.1 hscoped.2

/-- Two runs behind a top-level form: both have objects that are alike on their stacks, or they have put
them into their global frames. -/
inductive Passed (w : Pairing) (form : TopForm) (g₁ g₂ : FrameId) (C : Code) : State → State → Prop
  | value {n : Nat} {o₁ o₂ : Object} {store₁ store₂ : Store} (hnone : form.defined? = none)
      (stores : StoresAlike w n store₁ store₂) (objects : o₁.Alike (w.meets n) o₂) :
      Passed w form g₁ g₂ C ⟨⟨[o₁.image], [g₁], C, []⟩, store₁⟩ ⟨⟨[o₂.image], [g₂], C, []⟩, store₂⟩
  | define {n : Nat} {name : String} {store₁ store₂ : Store} (hsome : form.defined? = some name)
      (stores : StoresAlike w n store₁ store₂) :
      Passed w form g₁ g₂ C ⟨⟨[], [g₁], C, []⟩, store₁⟩ ⟨⟨[], [g₂], C, []⟩, store₂⟩

theorem TopForm.lockstep {names : List String} {form : TopForm} {g₁ g₂ : FrameId}
    (hscoped : form.Scoped .anywhere names) {n : Nat}
    (hmeets : w.meets n (names ++ form.defined?.toList).length g₁ g₂)
    (hdefines : form.defined? ≠ none → w.Defines g₁ g₂) {store₁ store₂ : Store}
    (hs : StoresAlike w n store₁ store₂) (C : Code) :
    Lockstep (Passed w form g₁ g₂ C) fuel ⟨⟨[], [g₁], form.code ++ C, []⟩, store₁⟩
      ⟨⟨[], [g₂], form.code ++ C, []⟩, store₂⟩ := by
  have hobject : Matches w fuel AnyForm form.objectCode _ _ := TopForm.matches_object hscoped g₁ g₂
  have hchain : Chain.Alike (w.meets n) [⟨names ++ form.defined?.toList, g₁⟩]
      [⟨names ++ form.defined?.toList, g₂⟩] := .cons hmeets .nil
  obtain ⟨hnone, hcode, -⟩ | ⟨name, span, hsome, hcode, -⟩ := form.code_cases
  · rw [hcode]
    refine (hobject [] [] C C [] [] n store₁ store₂ hchain hs).bind ?_
    rintro t₁ t₂ ⟨-, hs', ho, -⟩
    exact .done (.value hnone hs' ho)
  · rw [hcode, List.append_assoc]
    refine (hobject [] [] _ _ [] [] n store₁ store₂ hchain hs).bind ?_
    rintro t₁ t₂ ⟨-, hs', ho, -⟩
    have hg : w.Defines g₁ g₂ := hdefines (by rw [hsome]; nofun)
    exact .perform rfl rfl (.done (.define hsome (hs'.append hg ho)))

theorem Program.definedNames_cons (form : TopForm) (rest : Program) :
    Program.definedNames (form :: rest) = form.defined?.toList ++ Program.definedNames rest := by
  unfold Program.definedNames
  rw [List.filterMap_cons]
  cases form.defined? <;> rfl

/-- **The code of a program does the same in two runs.** -/
theorem Program.lockstep {g₁ g₂ : FrameId} {p : Program} {names : List String}
    (hscoped : p.Scoped .anywhere names)
    (hmeets : ∀ k, k ≤ names.length + p.definedNames.length → w.meets 0 k g₁ g₂)
    (hdefines : p.definedNames ≠ [] → w.Defines g₁ g₂) {n : Nat} {store₁ store₂ : Store}
    (hs : StoresAlike w n store₁ store₂) :
    Lockstep (Finished w g₁ g₂) fuel ⟨⟨[], [g₁], p.code, []⟩, store₁⟩ ⟨⟨[], [g₂], p.code, []⟩, store₂⟩ := by
  induction p generalizing names n store₁ store₂ with
  | nil => exact .done (.nothing hs)
  | cons form rest ih =>
    obtain ⟨hform, hrest⟩ := hscoped
    rw [Program.definedNames_cons] at hmeets hdefines
    have hfirst : w.meets n (names ++ form.defined?.toList).length g₁ g₂ := by
      refine Pairing.meets_mono (Nat.zero_le n) (hmeets _ ?_)
      rw [List.length_append, List.length_append]
      omega
    -- the global frames belong together for as many names as the whole program comes to define
    have hmeets' : ∀ k, k ≤ (names ++ form.defined?.toList).length + (Program.definedNames rest).length →
        w.meets 0 k g₁ g₂ := by
      intro k hk
      refine hmeets k ?_
      rw [List.length_append] at hk ⊢
      omega
    have hdefine : form.defined? ≠ none → w.Defines g₁ g₂ := by
      intro hne
      refine hdefines fun hnil => hne ?_
      exact Option.toList_eq_nil_iff.mp (List.append_eq_nil_iff.mp hnil).1
    have hdefines' : Program.definedNames rest ≠ [] → w.Defines g₁ g₂ := by
      intro hne
      exact hdefines fun hnil => hne (List.append_eq_nil_iff.mp hnil).2
    cases rest with
    | nil =>
      have hlast : Lockstep (Passed w form g₁ g₂ []) fuel _ _ :=
        TopForm.lockstep hform hfirst hdefine hs []
      rw [List.append_nil] at hlast
      refine hlast.imp ?_
      rintro t₁ t₂ (⟨-, hs', ho⟩ | ⟨-, hs'⟩)
      · exact .object hs' ho
      · exact .nothing hs'
    | cons next rest =>
      have hnext : Lockstep (Passed w form g₁ g₂ (form.drop ++ Program.code (next :: rest))) fuel _ _ :=
        TopForm.lockstep hform hfirst hdefine hs _
      rw [← List.append_assoc] at hnext
      refine hnext.bind ?_
      rintro t₁ t₂ (⟨hnone, hs', ho⟩ | ⟨hsome, hs'⟩)
      · obtain ⟨-, -, span, hdrop⟩ | ⟨name, span, hsome, -⟩ := form.code_cases
        · rw [hdrop]
          exact .perform rfl rfl (ih hrest hmeets' hdefines' hs')
        · rw [hnone] at hsome
          cases hsome
      · obtain ⟨hnone, -⟩ | ⟨name, span, -, -, hdrop⟩ := form.code_cases
        · rw [hnone] at hsome
          cases hsome
        · rw [hdrop]
          exact ih hrest hmeets' hdefines' hs'

/-! ## Outcomes -/

/-- How a value is shown: what is printed, and what an inspection says. -/
def Value.shown (v : Value) : String × String := (v.text, v.inspect)

/-- Two runs with the same outcome: the same number of steps, and the same error or results that are shown
the same. -/
structure SameOutcome (out₁ out₂ : RunResult × Machine) : Prop where
  steps : out₁.2.steps = out₂.2.steps
  result : out₁.1.map (Option.map Value.shown) = out₂.1.map (Option.map Value.shown)

/-- How the runs of two machines that go together end: with the same error, or in states that belong
together. -/
inductive EndTogether (Post : State → State → Prop) : RunResult × Machine → RunResult × Machine → Prop
  | error {t₁ t₂ : State} (e : RuntimeError) (steps : Nat) :
      EndTogether Post (.error e, t₁.machine steps) (.error e, t₂.machine steps)
  | ok {t₁ t₂ : State} (steps : Nat) (h : Post t₁ t₂) :
      EndTogether Post (.ok t₁.registers.stack.head?, t₁.machine steps)
        (.ok t₂.registers.stack.head?, t₂.machine steps)

/-- A run without steps left stops where there is an instruction. -/
theorem Machine.runFor_zero {m : Machine} (limit : Nat) (h : m.next ≠ .ok none) :
    runFor limit 0 m = (.error (.stepLimitExceeded limit), m) := by
  rw [runFor, if_neg]
  exact fun hhalt => h (next_of_isHalted hhalt)

/-- Runs that go together end together, under every limit that is within the fuel. -/
theorem Lockstep.runFor {Post : State → State → Prop} {s₁ s₂ : State} (h : Lockstep Post fuel s₁ s₂)
    (hhalt : ∀ t₁ t₂, Post t₁ t₂ → t₁.registers.code = [] ∧ t₂.registers.code = []) (limit : Nat)
    {budget : Nat} (hlt : budget < fuel) (steps : Nat) :
    EndTogether Post (Machine.runFor limit budget (s₁.machine steps))
      (Machine.runFor limit budget (s₂.machine steps)) := by
  induction h generalizing budget steps with
  | @done fuel t₁ t₂ hpost =>
    obtain ⟨h₁, h₂⟩ := hhalt t₁ t₂ hpost
    have hhalt₁ : (t₁.machine steps).isHalted := List.isEmpty_iff.mpr h₁
    have hhalt₂ : (t₂.machine steps).isHalted := List.isEmpty_iff.mpr h₂
    rw [Machine.runFor_of_isHalted limit hhalt₁, Machine.runFor_of_isHalted limit hhalt₂]
    exact .ok steps hpost
  | @fail fuel t₁ t₂ e h₁ h₂ =>
    have hnext₁ : (t₁.machine steps).next = .error e := h₁
    have hnext₂ : (t₂.machine steps).next = .error e := h₂
    cases budget with
    | zero =>
      rw [Machine.runFor_zero limit (by simp [hnext₁]),
        Machine.runFor_zero limit (by simp [hnext₂])]
      exact .error _ steps
    | succ budget =>
      rw [Machine.runFor, Machine.runFor, hnext₁, hnext₂]
      exact .error e steps
  -- the limit is used up before the fuel is
  | spent => cases hlt
  | @step fuel t₁ t₂ move₁ move₂ h₁ h₂ _ ih =>
    have hnext₁ : (t₁.machine steps).next = .ok (some move₁) := h₁
    have hnext₂ : (t₂.machine steps).next = .ok (some move₂) := h₂
    cases budget with
    | zero =>
      rw [Machine.runFor_zero limit (by simp [hnext₁]),
        Machine.runFor_zero limit (by simp [hnext₂])]
      exact .error _ steps
    | succ budget =>
      rw [Machine.runFor_succ limit hnext₁, Machine.runFor_succ limit hnext₂]
      exact ih (Nat.lt_of_succ_lt_succ hlt) (steps + 1)

theorem Finished.halted {g₁ g₂ : FrameId} (t₁ t₂ : State) (h : Finished w g₁ g₂ t₁ t₂) :
    t₁.registers.code = [] ∧ t₂.registers.code = [] := by
  cases h with
  | nothing => exact ⟨rfl, rfl⟩
  | object => exact ⟨rfl, rfl⟩

theorem Finished.storesAlike {g₁ g₂ : FrameId} {t₁ t₂ : State} (h : Finished w g₁ g₂ t₁ t₂) :
    ∃ n, StoresAlike w n t₁.store t₂.store := by
  cases h with
  | @nothing n _ _ stores => exact ⟨n, stores⟩
  | @object n _ _ _ _ stores _ => exact ⟨n, stores⟩

/-- Runs that end together with results end in states that belong together. -/
theorem EndTogether.post {Post : State → State → Prop} {r₁ r₂ : Option Value} {m₁ m₂ : Machine}
    (h : EndTogether Post (.ok r₁, m₁) (.ok r₂, m₂)) :
    ∃ t₁ t₂, Post t₁ t₂ ∧ m₁.store = t₁.store ∧ m₂.store = t₂.store := by
  cases h with
  | @ok t₁ t₂ steps h => exact ⟨t₁, t₂, h, rfl, rfl⟩

/-- Runs that end together, with results that are alike, have the same outcome. -/
theorem EndTogether.sameOutcome {g₁ g₂ : FrameId} {out₁ out₂ : RunResult × Machine}
    (h : EndTogether (Finished w g₁ g₂) out₁ out₂) : SameOutcome out₁ out₂ := by
  cases h with
  | error e steps => exact ⟨rfl, rfl⟩
  | ok steps hfinished =>
    refine ⟨rfl, ?_⟩
    cases hfinished with
    | nothing => rfl
    | @object _ o₁ o₂ _ _ _ objects =>
      have hshown : o₁.image.shown = o₂.image.shown := Prod.ext objects.text_eq objects.inspect_eq
      exact congrArg (fun shown => Except.ok (some shown)) hshown

/-- **A program that is run over two stores which are alike ends in the same way in both.** -/
theorem Program.endTogether {g₁ g₂ : FrameId} {p : Program} {names : List String}
    (hscoped : p.Scoped .anywhere names)
    (hmeets : ∀ k, k ≤ names.length + p.definedNames.length → w.meets 0 k g₁ g₂)
    (hdefines : p.definedNames ≠ [] → w.Defines g₁ g₂) {store₁ store₂ : Store}
    (hs : StoresAlike w 0 store₁ store₂) (limit : Nat) :
    EndTogether (Finished w g₁ g₂) ((Machine.start p.code [g₁] store₁).runWithLimit limit)
      ((Machine.start p.code [g₂] store₂).runWithLimit limit) :=
  (Program.lockstep hscoped hmeets hdefines hs).runFor Finished.halted limit (Nat.lt_succ_self limit) 0

end

end LispMachine
