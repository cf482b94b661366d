import LispMachine.Proofs.Running
import LispMachine.Proofs.Simulation

/-!
# Whole programs in the machine

A program starts on an empty stack with the global frame as its only frame, and each of its forms comes
back to such a stage. What the object of a form needs is evaluated without touching the global frame;
`DEFUN` alone adds to it, one object for each definition and in the order of the definitions
(`Program.Defines`).

`Program.simulates` is the simulation for a whole program. Because it holds with any fuel, it speaks
about every stage that a run comes to, however long the run is (`Program.reaches`).
-/

namespace LispMachine

section
variable {setting : Setting} {α : Type} {fuel : Nat} {apply : Application}

theorem Simulates.allow (global : Option FrameId) {x : Evaluation α} {c : Control} {h : Heap}
    {finish : α → Control} {Good : α → Heap → Prop}
    (hx : Simulates { setting with global := none } fuel x c h finish Good) :
    Simulates { setting with global } fuel x c h finish Good := by
  unfold Simulates at hx ⊢
  split at hx
  next =>
    obtain ⟨⟨k, hk⟩, hrest⟩ := hx
    exact ⟨⟨k, hk.allow⟩, hrest⟩
  next =>
    obtain ⟨k, c', h', hk, hfails⟩ := hx
    exact ⟨k, c', h', hk.allow, hfails.next, hfails.isOfData, hfails.sited⟩
  next =>
    obtain ⟨k, c', h', hle, hk⟩ := hx
    exact ⟨k, c', h', hle, hk.allow⟩
  next => exact hx.elim

/-! ## Top-level forms -/

/-- The code that computes the object of a form, without the `DEFUN` of a definition. -/
def TopForm.objectCode : TopForm → Code
  | .value _ e => e.code
  | .defineVariable _ _ e => e.code
  | .defineFunction parens _ _ body => [instr .ldf parens.span, Code.function parens (codes body)]

/-- An expression at the top level leaves a value that has to be dropped; a definition ends in `DEFUN` and
leaves none. -/
theorem TopForm.code_cases (form : TopForm) :
    (form.defined? = none ∧ form.code = form.objectCode ∧ ∃ span, form.drop = [instr .pop span]) ∨
    ∃ name span, form.defined? = some name ∧ form.code = form.objectCode ++ [instr .defun span] ∧
      form.drop = [] := by
  cases form with
  | value span e => exact .inl ⟨rfl, rfl, span, rfl⟩
  | defineVariable parens name e => exact .inr ⟨name, parens.span, rfl, rfl, rfl⟩
  | defineFunction parens name params body => exact .inr ⟨name, parens.span, rfl, rfl, rfl⟩

theorem TopForm.computes_object (happly : Applies setting fuel apply) (g : FrameId)
    {names : List String} {form : TopForm} (hscoped : form.Scoped setting.site names) :
    Computes setting fuel id (form.object apply g names) form.objectCode
      [⟨names ++ form.defined?.toList, g⟩] := by
  cases form with
  | value span e =>
    have hnames : names ++ (TopForm.value span e).defined?.toList = names := List.append_nil names
    rw [hnames]
    exact computes_expr happly [⟨names, g⟩] e hscoped
  | defineVariable parens name e => exact computes_expr happly [⟨names ++ [name], g⟩] e hscoped
  | defineFunction parens name params body => exact .function hscoped.1 hscoped.2

/-- `DEFUN` puts the top of the stack at the end of the global frame. -/
theorem Step.define {g : FrameId} {o : Object} {span : Span} {C : Code} {D : List DumpEntry}
    {w : List FrameId} {h : Heap} (hs : h.Sound setting.site) (ho : o.Sound setting.site h.size)
    (hglobal : setting.global = some g) :
    Step setting ⟨⟨[o.image], [g], instr .defun span :: C, D⟩, w⟩ h ⟨⟨[], [g], C, D⟩, w⟩
      (h.append g o) :=
  .of_perform rfl (.define o hglobal) (hs.append g ho) (.of_ne (by decide))

theorem TopForm.simulates {g : FrameId} (hglobal : setting.global = some g)
    (happly : Applies { setting with global := none } fuel apply) {names : List String}
    {form : TopForm} (hscoped : form.Scoped setting.site names) (C : Code) {h : Heap}
    (hfit : Fits setting [⟨names, g⟩] h) :
    Simulates setting fuel (form.eval apply g names) ⟨⟨[], [g], form.code ++ C, []⟩, []⟩ h
      (fun r => ⟨⟨(r.map Object.image).toList, [g], C, []⟩, []⟩)
      (fun r _ => r.isNone = form.defined?.isSome) := by
  have hobject := TopForm.computes_object happly g hscoped
  have hquiet : Fits { setting with global := none } [⟨names ++ form.defined?.toList, g⟩] h :=
    ⟨hfit.sound, hfit.base_le, hfit.lt_size⟩
  -- the object is computed with the global frame out of reach, and then it is defined
  obtain ⟨hnone, hcode, -⟩ | ⟨name, span, hsome, hcode, -⟩ := form.code_cases
  · have hx := Simulates.allow setting.global (hobject [] C [] [] h hquiet)
    rw [hcode]
    refine hx.bind fun o h' _ hs _ => ?_
    rw [hnone]
    exact .pure rfl hs rfl
  · have hx := Simulates.allow setting.global
      (hobject [] (instr .defun span :: C) [] [] h hquiet)
    rw [hcode, List.append_assoc]
    refine hx.bind fun o h' _ hs ho => ?_
    rw [hsome]
    exact .step (y := pure none) rfl (.define hs ho hglobal) (.pure rfl (hs.append g ho) rfl)

/-! ## Programs -/

/-- The stage that a program starts in. -/
def Program.entry (p : Program) (g : FrameId) : Control := ⟨⟨[], [g], p.code, []⟩, []⟩

/-- The stage that a program ends in: nothing is left to do, and the result is on the stack. -/
def Program.exit (g : FrameId) (r : Option Object) : Control :=
  ⟨⟨(r.map Object.image).toList, [g], [], []⟩, []⟩

theorem Program.simulates_from {g : FrameId} (hglobal : setting.global = some g)
    (happly : Applies { setting with global := none } fuel apply) {p : Program}
    {names : List String} (hscoped : p.Scoped setting.site names) {h : Heap}
    (hfit : Fits setting [⟨names, g⟩] h) :
    Simulates setting fuel (p.evalWith apply g names) (p.entry g) h (Program.exit g)
      (fun _ _ => True) := by
  induction p generalizing names h with
  | nil => exact .pure rfl hfit.sound trivial
  | cons form rest ih =>
    cases rest with
    | nil =>
      have hform := TopForm.simulates hglobal happly hscoped.1 [] hfit
      rw [List.append_nil] at hform
      exact hform.imp fun _ _ _ _ => trivial
    | cons next rest =>
      have hform := TopForm.simulates hglobal happly hscoped.1
        (form.drop ++ Program.code (next :: rest)) hfit
      rw [← List.append_assoc] at hform
      refine hform.bind fun r h' hle hs hr => ?_
      have hfit' := hfit.mono hle hs
      -- the next form finds the stack empty: a value is dropped, and a definition has left none
      have hrest := ih hscoped.2 ⟨hfit'.sound, hfit'.base_le, hfit'.lt_size⟩
      obtain ⟨hnone, -, span, hdrop⟩ | ⟨name, span, hsome, -, hdrop⟩ := form.code_cases
      · rw [hnone] at hr
        rw [hdrop]
        cases r with
        | none => cases hr
        | some o => exact .step rfl (.keep (by decide) rfl hs) hrest
      · rw [hsome] at hr
        cases Option.isNone_iff_eq_none.mp hr
        rw [hdrop]
        exact hrest

/-- **The code of a program does what the program means.** -/
theorem Program.simulates {g : FrameId} (hglobal : setting.global = some g) {p : Program}
    {names : List String} (hscoped : p.Scoped setting.site names) {h : Heap}
    (hfit : Fits setting [⟨names, g⟩] h) (fuel : Nat) :
    Simulates setting fuel (p.eval fuel g names) (p.entry g) h (Program.exit g) (fun _ _ => True) :=
  Program.simulates_from hglobal (applies_applyWith fuel) hscoped hfit

/-! ## Definitions

What a program adds to the global frame, apart from how the machine comes to it: the objects of its definitions,
in order. The names go with them one by one.
-/

/-- The definitions that a program makes, each with the object that it evaluates to: every form is
evaluated in the heap that the forms before it leave. -/
inductive Program.Defines (apply : Application) (g : FrameId) :
    List String → Program → Heap → List (String × Object) → Heap → Prop
  | nil {names : List String} {h : Heap} : Defines apply g names [] h [] h
  | value {names : List String} {form : TopForm} {rest : Program} {h h₁ h' : Heap} {o : Object}
      {defs : List (String × Object)} (hnone : form.defined? = none)
      (hobject : form.object apply g names h = .ok (o, h₁))
      (hrest : Defines apply g names rest h₁ defs h') :
      Defines apply g names (form :: rest) h defs h'
  | define {names : List String} {form : TopForm} {rest : Program} {h h₁ h' : Heap} {o : Object}
      {name : String} {defs : List (String × Object)} (hsome : form.defined? = some name)
      (hobject : form.object apply g names h = .ok (o, h₁))
      (hrest : Defines apply g (names ++ [name]) rest (h₁.append g o) defs h') :
      Defines apply g names (form :: rest) h ((name, o) :: defs) h'

/-- A form is evaluated for its object, and then what it defines is put into the global frame. -/
theorem TopForm.eval_eq_ok {g : FrameId} {names : List String} {form : TopForm} {h h' : Heap}
    {r : Option Object} (heval : form.eval apply g names h = .ok (r, h')) :
    ∃ o h₁, form.object apply g names h = .ok (o, h₁) ∧
      ((form.defined? = none ∧ h' = h₁) ∨ ∃ name, form.defined? = some name ∧ h' = h₁.append g o) := by
  obtain ⟨⟨o, h₁⟩, hobject, hrest⟩ := Except.bind_eq_ok heval
  refine ⟨o, h₁, hobject, ?_⟩
  cases hdefined : form.defined? with
  | none =>
    simp only [hdefined] at hrest
    cases hrest
    exact .inl ⟨rfl, rfl⟩
  | some name =>
    simp only [hdefined] at hrest
    cases hrest
    exact .inr ⟨name, rfl, rfl⟩

/-- One more form in front of definitions. -/
theorem Program.Defines.cons {g : FrameId} {names : List String} {form : TopForm} {rest : Program}
    {h h₁ h' : Heap} {r : Option Object} {defs : List (String × Object)}
    (heval : form.eval apply g names h = .ok (r, h₁))
    (hrest : Defines apply g (names ++ form.defined?.toList) rest h₁ defs h') :
    ∃ defs, Defines apply g names (form :: rest) h defs h' := by
  obtain ⟨o, h₂, hobject, ⟨hnone, rfl⟩ | ⟨name, hsome, rfl⟩⟩ := TopForm.eval_eq_ok heval
  · rw [hnone, Option.toList_none, List.append_nil] at hrest
    exact ⟨defs, .value hnone hobject hrest⟩
  · rw [hsome] at hrest
    exact ⟨(name, o) :: defs, .define hsome hobject hrest⟩

/-- A program that evaluates to something makes its definitions. -/
theorem Program.exists_defines {g : FrameId} {p : Program} {names : List String} {h h' : Heap}
    {r : Option Object} (heval : p.evalWith apply g names h = .ok (r, h')) :
    ∃ defs, Defines apply g names p h defs h' := by
  induction p generalizing names h with
  | nil =>
    cases heval
    exact ⟨[], .nil⟩
  | cons form rest ih =>
    cases rest with
    | nil => exact Defines.cons heval .nil
    | cons next rest =>
      obtain ⟨⟨r₁, h₁⟩, hform, hrest⟩ := Except.bind_eq_ok heval
      obtain ⟨defs, hdefs⟩ := ih hrest
      exact hdefs.cons hform

/-- A program is evaluated if its first form is and then the others are. -/
theorem Program.exists_evalWith_cons {g : FrameId} {form : TopForm} {rest : Program} {names : List String}
    {h h₁ h' : Heap} {r r' : Option Object} (hform : form.eval apply g names h = .ok (r, h₁))
    (hrest : rest.evalWith apply g (names ++ form.defined?.toList) h₁ = .ok (r', h')) :
    ∃ r, Program.evalWith apply g names (form :: rest) h = .ok (r, h') := by
  cases rest with
  | nil =>
    cases hrest
    exact ⟨r, hform⟩
  | cons next rest =>
    refine ⟨r', ?_⟩
    show (form.eval apply g names h).bind _ = _
    rw [hform]
    exact hrest

/-- A program that makes its definitions evaluates to something, and leaves the same heap. -/
theorem Program.Defines.exists_eval {g : FrameId} {p : Program} {names : List String} {h h' : Heap}
    {defs : List (String × Object)} (hdefs : Defines apply g names p h defs h') :
    ∃ r, p.evalWith apply g names h = .ok (r, h') := by
  induction hdefs with
  | nil => exact ⟨none, rfl⟩
  | @value names form rest h h₁ h' o defs hnone hobject _ ih =>
    have hform : form.eval apply g names h = .ok (some o, h₁) := by
      show (form.object apply g names h).bind _ = _
      rw [hobject, hnone]
      rfl
    obtain ⟨r, hrest⟩ := ih
    rw [← List.append_nil names, ← Option.toList_none, ← hnone] at hrest
    exact Program.exists_evalWith_cons hform hrest
  | @define names form rest h h₁ h' o name defs hsome hobject _ ih =>
    have hform : form.eval apply g names h = .ok (none, h₁.append g o) := by
      show (form.object apply g names h).bind _ = _
      rw [hobject, hsome]
      rfl
    obtain ⟨r, hrest⟩ := ih
    have hnames : names ++ [name] = names ++ form.defined?.toList := by rw [hsome, Option.toList_some]
    exact Program.exists_evalWith_cons hform (hnames ▸ hrest)

theorem Program.Defines.names_eq {g : FrameId} {p : Program} {names : List String} {h h' : Heap}
    {defs : List (String × Object)} (hdefs : Defines apply g names p h defs h') :
    defs.map (·.1) = p.definedNames := by
  induction hdefs with
  | nil => rfl
  | value hnone _ _ ih => rw [ih, definedNames, definedNames, List.filterMap_cons_none hnone]
  | define hsome _ _ ih =>
    rw [List.map_cons, ih, definedNames, definedNames, List.filterMap_cons_some hsome]

/-- The object of a form is evaluated without a change to the frames that were there before. -/
theorem TopForm.object_keeps (hglobal : setting.global = none) (happly : Applies setting fuel apply)
    {g : FrameId} {names : List String} {form : TopForm} (hscoped : form.Scoped setting.site names)
    {h h' : Heap} {o : Object} (hfit : Fits setting [⟨names, g⟩] h)
    (hobject : form.object apply g names h = .ok (o, h')) :
    Fits setting [⟨names, g⟩] h' ∧ o.Sound setting.site h'.size ∧
      ∀ f, f < setting.base → h'.contents f = h.contents f := by
  have hsim := TopForm.computes_object happly g hscoped [] [] [] [] h
    ⟨hfit.sound, hfit.base_le, hfit.lt_size⟩
  unfold Simulates at hsim
  rw [hobject] at hsim
  obtain ⟨⟨k, hk⟩, hs, ho⟩ := hsim
  refine ⟨hfit.mono hk.size_le hs, ho, fun f hf => hk.contents_old hfit.base_le hf ?_⟩
  rw [hglobal]
  exact nofun

/-- Definitions add their objects to the end of the global frame. -/
theorem Program.Defines.contents_eq (hglobal : setting.global = none)
    (happly : Applies setting fuel apply) {g : FrameId} (hg : g < setting.base) {p : Program}
    {names : List String} {h h' : Heap} {defs : List (String × Object)}
    (hdefs : Defines apply g names p h defs h') (hscoped : p.Scoped setting.site names)
    (hfit : Fits setting [⟨names, g⟩] h) :
    h'.contents g = h.contents g ++ defs.map (·.2) := by
  induction hdefs with
  | nil => rw [List.map_nil, List.append_nil]
  | value hnone hobject _ ih =>
    obtain ⟨hform, hrest⟩ := hscoped
    rw [hnone, Option.toList_none, List.append_nil] at hrest
    obtain ⟨hfit₁, -, hkeep⟩ := TopForm.object_keeps hglobal happly hform hfit hobject
    rw [ih hrest hfit₁, hkeep g hg]
  | @define names form rest h h₁ h' o name defs hsome hobject _ ih =>
    obtain ⟨hform, hrest⟩ := hscoped
    rw [hsome] at hrest
    -- evaluating the object leaves the global frame as it was, and DEFUN appends to just that frame
    obtain ⟨hfit₁, ho, hkeep⟩ := TopForm.object_keeps hglobal happly hform hfit hobject
    have hsize := Heap.size_append h₁ g o
    have hfit₂ : Fits setting [⟨names ++ [name], g⟩] (h₁.append g o) := by
      refine ⟨hfit₁.sound.append g ho, ?_, ?_⟩
      · rw [hsize]
        exact hfit₁.base_le
      · rw [hsize]
        exact hfit₁.lt_size
    have hlt : g < h₁.size := Nat.lt_of_lt_of_le hg hfit₁.base_le
    rw [ih hrest hfit₂, Heap.contents_append, if_pos ⟨rfl, hlt⟩, hkeep g hg, List.map_cons,
      List.append_assoc, List.singleton_append]

end

/-! ## The stages of a run

The simulation speaks of the end of a run, and of runs without an end only through fuel. Every machine of a run
is at a stage all the same: give the evaluator more fuel than the run has made steps.
-/

section
variable {setting : Setting} {c c' : Control} {h h' : Heap}

/-- What the machine of a stage is about to do: a variable is loaded where its site allows it, and only
the data of the program can make the instruction fail. -/
structure Ready (setting : Setting) (c : Control) (h : Heap) : Prop where
  sited : c.Sited setting.site
  isOfData : ∀ e, (c.machine h 0).next = .error e → e.isOfData

theorem Step.ready (hs : Step setting c h c' h') : Ready setting c h := by
  refine ⟨hs.sited, ?_⟩
  intro e he
  obtain ⟨move, hnext, -⟩ := hs.moves
  rw [hnext] at he
  cases he

theorem Fails.ready {e : RuntimeError} (hf : Fails setting c h e) : Ready setting c h := by
  refine ⟨hf.sited, ?_⟩
  intro e' he
  rw [hf.next] at he
  cases he
  exact hf.isOfData

theorem Ready.of_halted (hcode : c.registers.code = []) : Ready setting c h := by
  constructor
  · intro origin rest heq
    rw [hcode] at heq
    cases heq
  · intro e he
    have hnext : (c.machine h 0).next = .ok none := by simp only [Control.machine, Machine.next, hcode]
    rw [hnext] at he
    cases he

theorem Steps.ready {n : Nat} (hs : Steps setting n c h c' h') (hr : Ready setting c' h') :
    Ready setting c h := by
  cases hs with
  | refl => exact hr
  | head first _ => exact first.ready

theorem Steps.split {k n : Nat} (hs : Steps setting k c h c' h') (hle : n ≤ k) :
    ∃ c₁ h₁, Steps setting n c h c₁ h₁ ∧ Steps setting (k - n) c₁ h₁ c' h' := by
  induction n generalizing k c h with
  | zero => exact ⟨c, h, .refl c h, hs⟩
  | succ n ih =>
    cases hs with
    | refl => cases hle
    | head first rest =>
      obtain ⟨c₁, h₁, hn, hk⟩ := ih rest (Nat.le_of_succ_le_succ hle)
      rw [Nat.succ_sub_succ]
      exact ⟨c₁, h₁, .head first hn, hk⟩

/-- The steps of a stage are those of its machine. -/
theorem Steps.after {n : Nat} (hs : Steps setting n c h c' h') (steps : Nat) :
    (c.machine h steps).after n = some (c'.machine h' (steps + n)) := by
  induction hs generalizing steps with
  | refl => rfl
  | @head n c c₁ c' h h₁ h' first rest ih =>
    obtain ⟨move, hnext, hregs, hc⟩ := first.moves
    have hstep : (c.machine h steps).step = .ok (some (c₁.machine h₁ (steps + 1))) := by
      refine Machine.step_eq_some_iff.mpr ⟨move, hnext, ?_⟩
      simp only [Machine.advance, Control.machine, hregs, hc.image]
    rw [Machine.after_succ hstep, ih (steps + 1), Nat.add_right_comm, Nat.add_assoc]

/-- What is simulated with any fuel goes through stages only. -/
theorem Simulates.reaches {α : Type} {x : Nat → Evaluation α} {finish : α → Control}
    {Good : Nat → α → Heap → Prop} (hx : ∀ fuel, Simulates setting fuel (x fuel) c h finish (Good fuel))
    (hfinish : ∀ a, (finish a).registers.code = []) {n : Nat} {m : Machine}
    (hafter : (c.machine h 0).after n = some m) :
    ∃ c' h', m = c'.machine h' n ∧ Steps setting n c h c' h' ∧ Ready setting c' h' := by
  -- with fuel for one more step, an evaluation that runs out of it is behind the stage
  have hsim := hx (n + 1)
  have hsplit : ∀ {k : Nat} {c₂ : Control} {h₂ : Heap}, Steps setting k c h c₂ h₂ → n ≤ k →
      (k = n → Ready setting c₂ h₂) →
      ∃ c' h', m = c'.machine h' n ∧ Steps setting n c h c' h' ∧ Ready setting c' h' := by
    intro k c₂ h₂ hk hle hready
    obtain ⟨c₁, h₁, hn, hrest⟩ := hk.split hle
    have hm := hn.after 0
    rw [hafter, Nat.zero_add] at hm
    refine ⟨c₁, h₁, Option.some.inj hm, hn, ?_⟩
    rcases Nat.eq_or_lt_of_le hle with heq | hlt
    · exact hrest.ready (hready heq.symm)
    · obtain ⟨l, hl⟩ := Nat.exists_eq_add_of_lt hlt
      -- an instruction is still to be executed, and so its stage is ready
      have hpos : k - n = l + 1 := by omega
      rw [hpos] at hrest
      cases hrest with
      | head first _ => exact first.ready
  unfold Simulates at hsim
  split at hsim
  next a h₂ _ =>
    obtain ⟨⟨k, hk⟩, -⟩ := hsim
    have hhalt : ((finish a).machine h₂ (0 + k)).isHalted := List.isEmpty_iff.mpr (hfinish a)
    exact hsplit hk (Machine.le_of_stuck (hk.after 0) (Machine.stuck_of_isHalted hhalt) hafter)
      fun _ => .of_halted (hfinish a)
  next e _ =>
    obtain ⟨k, c₂, h₂, hk, hfails⟩ := hsim
    have hle := Machine.le_of_stuck (hk.after 0) (Machine.stuck_of_error hfails.next) hafter
    exact hsplit hk hle fun _ => hfails.ready
  next =>
    obtain ⟨k, c₂, h₂, hle, hk⟩ := hsim
    refine hsplit hk (Nat.le_of_succ_le hle) fun heq => ?_
    omega
  next => exact hsim.elim

end

end LispMachine
