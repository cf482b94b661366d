import LispMachine.Machine
import LispMachine.Proofs.Primitive

/-!
# Stages of a run

A stage is what a run of compiled code goes through: the registers of the machine, the heap whose image
is its store, and the frames that `DUM` has made and that wait for their `RAP`, the newest first. A
step from one stage to the next is an instruction that the machine carries out, together with what it
may do to the heap (`Change`): make a frame, fill the newest of the waiting frames, or add to the
global frame. No other frame is ever touched.

What holds of a whole run follows by induction from what holds of a step.
-/

namespace LispMachine

/-- What is fixed during a run. -/
structure Setting where
  /-- What is known of the variables in code. -/
  site : Site
  /-- The frames below this bound are older than the run. -/
  base : Nat
  /-- The frame that definitions add to, where there are any. -/
  global : Option FrameId

/-- The registers, and the frames that wait to be filled. -/
structure Control where
  registers : Registers
  waiting : List FrameId

/-- The machine of a stage. -/
def Control.machine (c : Control) (h : Heap) (steps : Nat) : Machine :=
  { registers := c.registers, store := h.image, steps }

/-- What an instruction with an effect does to the heap and to the waiting frames. -/
inductive Change (setting : Setting) : Opcode → Effect → Heap → List FrameId → Heap → List FrameId → Prop
  | keep {op : Opcode} {h : Heap} {waiting : List FrameId} :
      Change setting op .keep h waiting h waiting
  | call {h : Heap} {waiting : List FrameId} (args : List Object) :
      Change setting .ap (.alloc (args.map Object.image)) h waiting (h.alloc args) waiting
  | reserve {h : Heap} {waiting : List FrameId} :
      Change setting .dum (.alloc []) h waiting (h.alloc []) (h.size :: waiting)
  | fill {h : Heap} {waiting : List FrameId} {f : FrameId} (args : List Object)
      (young : setting.base ≤ f) :
      Change setting .rap (.fill f (args.map Object.image)) h (f :: waiting) (h.fill f args) waiting
  | define {h : Heap} {waiting : List FrameId} {f : FrameId} (o : Object)
      (isGlobal : setting.global = some f) :
      Change setting .defun (.append f o.image) h waiting (h.append f o) waiting

/-- A variable that is about to be loaded stands where its site allows it. -/
def Control.Sited (site : Site) (c : Control) : Prop :=
  ∀ origin rest, c.registers.code = .op .ld origin :: rest →
    ∃ span, origin = some span ∧ site span c.registers.env.length

/-- An instruction other than `LD` loads nothing. -/
theorem Control.Sited.of_ne {site : Site} {op : Opcode} {origin : Option Span} {S : Stack}
    {env : Environment} {C : Code} {D : List DumpEntry} {w : List FrameId} (hop : op ≠ .ld) :
    Sited site ⟨⟨S, env, .op op origin :: C, D⟩, w⟩ := by
  rintro origin' rest heq
  cases heq
  exact absurd rfl hop

theorem Control.Sited.of_site {site : Site} {span : Span} {S : Stack} {env : Environment} {C : Code}
    {D : List DumpEntry} {w : List FrameId} (hsite : site span env.length) :
    Sited site ⟨⟨S, env, instr .ld span :: C, D⟩, w⟩ := by
  rintro origin' rest heq
  cases heq
  exact ⟨span, rfl, hsite⟩

/-- One step of a run. -/
structure Step (setting : Setting) (c : Control) (h : Heap) (c' : Control) (h' : Heap) : Prop where
  moves : ∃ move : Move, (c.machine h 0).next = .ok (some move) ∧ move.registers = c'.registers ∧
    Change setting move.opcode move.effect h c.waiting h' c'.waiting
  sited : c.Sited setting.site
  sound : h'.Sound setting.site

/-- A run that cannot go on from a stage, because of the data that the program works on. -/
structure Fails (setting : Setting) (c : Control) (h : Heap) (e : RuntimeError) : Prop where
  next : (c.machine h 0).next = .error e
  isOfData : e.isOfData
  sited : c.Sited setting.site

/-- So many steps of a run. -/
inductive Steps (setting : Setting) : Nat → Control → Heap → Control → Heap → Prop
  | refl (c : Control) (h : Heap) : Steps setting 0 c h c h
  | head {n : Nat} {c c' c'' : Control} {h h' h'' : Heap} (first : Step setting c h c' h')
      (rest : Steps setting n c' h' c'' h'') : Steps setting (n + 1) c h c'' h''

section
variable {setting : Setting}

theorem Steps.trans {m n : Nat} {c c' c'' : Control} {h h' h'' : Heap}
    (h₁ : Steps setting m c h c' h') (h₂ : Steps setting n c' h' c'' h'') :
    Steps setting (m + n) c h c'' h'' := by
  induction h₁ with
  | refl => rwa [Nat.zero_add]
  | head first _ ih =>
    rw [Nat.add_right_comm]
    exact .head first (ih h₂)

/-! ## What a step does to the heap -/

namespace Change
variable {op : Opcode} {effect : Effect} {h h' : Heap} {w w' : List FrameId}

/-- The change of the heap is the effect on the store. -/
theorem image (hc : Change setting op effect h w h' w') : h'.image = h.image.apply effect := by
  cases hc with
  | keep => rfl
  | call args => exact Heap.image_alloc h args
  | reserve => exact Heap.image_alloc h []
  | fill args => exact Heap.image_fill h _ args
  | define o => exact Heap.image_append h _ o

theorem size_le (hc : Change setting op effect h w h' w') : h.size ≤ h'.size := by
  cases hc with
  | keep => exact Nat.le_refl _
  | call | reserve => rw [Heap.size_alloc]; exact Nat.le_succ _
  | fill => exact Nat.le_of_eq (Heap.size_fill h _ _).symm
  | define => exact Nat.le_of_eq (Heap.size_append h _ _).symm

/-- Frames that are older than the run stay as they are, the global frame apart. -/
theorem contents_old (hc : Change setting op effect h w h' w') (hbase : setting.base ≤ h.size)
    {f : FrameId} (hf : f < setting.base) (hg : setting.global ≠ some f) :
    h'.contents f = h.contents f := by
  cases hc with
  | keep => rfl
  | call | reserve => exact Heap.contents_alloc_of_lt (Nat.lt_of_lt_of_le hf hbase) _
  | fill args young => exact Heap.contents_fill_of_ne (Nat.ne_of_lt (Nat.lt_of_lt_of_le hf young)) h args
  | define o isGlobal =>
    rw [Heap.contents_append, if_neg]
    rintro ⟨rfl, -⟩
    exact hg isGlobal

/-- A frame that is older than the run only grows at its end. -/
theorem contents_prefix (hc : Change setting op effect h w h' w') (hbase : setting.base ≤ h.size)
    {f : FrameId} (hf : f < setting.base) : h.contents f <+: h'.contents f := by
  by_cases hg : setting.global = some f
  · cases hc with
    | define o isGlobal =>
      rw [Heap.contents_append]
      split
      · exact List.prefix_append _ _
      · exact List.prefix_rfl
    | keep => exact List.prefix_rfl
    | call | reserve =>
      rewrite [Heap.contents_alloc_of_lt (Nat.lt_of_lt_of_le hf hbase)]
      exact List.prefix_rfl
    | fill args young =>
      rewrite [Heap.contents_fill_of_ne (Nat.ne_of_lt (Nat.lt_of_lt_of_le hf young))]
      exact List.prefix_rfl
  · rewrite [hc.contents_old hbase hf hg]
    exact List.prefix_rfl

/-- What may be done where nothing is defined may be done where something is. -/
theorem allow {global : Option FrameId}
    (hc : Change { setting with global := none } op effect h w h' w') :
    Change { setting with global } op effect h w h' w' := by
  cases hc with
  | keep => exact .keep
  | call args => exact .call args
  | reserve => exact .reserve
  | fill args young => exact .fill args young
  | define o isGlobal => cases isGlobal

end Change

namespace Steps
variable {n : Nat} {c c' : Control} {h h' : Heap}

theorem size_le (hs : Steps setting n c h c' h') : h.size ≤ h'.size := by
  induction hs with
  | refl => exact Nat.le_refl _
  | head first _ ih =>
    obtain ⟨_, _, _, hc⟩ := first.moves
    exact Nat.le_trans hc.size_le ih

theorem sound (hs : Steps setting n c h c' h') (h0 : h.Sound setting.site) :
    h'.Sound setting.site := by
  induction hs with
  | refl => exact h0
  | head first _ ih => exact ih first.sound

/-- A run leaves the frames that are older than it as they are, the global frame apart. -/
theorem contents_old (hs : Steps setting n c h c' h') (hbase : setting.base ≤ h.size)
    {f : FrameId} (hf : f < setting.base) (hg : setting.global ≠ some f) :
    h'.contents f = h.contents f := by
  induction hs with
  | refl => rfl
  | head first _ ih =>
    obtain ⟨_, _, _, hc⟩ := first.moves
    rw [ih (Nat.le_trans hbase hc.size_le), hc.contents_old hbase hf hg]

/-- A run only adds to the end of a frame that is older than it. -/
theorem contents_prefix (hs : Steps setting n c h c' h') (hbase : setting.base ≤ h.size)
    {f : FrameId} (hf : f < setting.base) : h.contents f <+: h'.contents f := by
  induction hs with
  | refl => exact List.prefix_rfl
  | head first _ ih =>
    obtain ⟨_, _, _, hc⟩ := first.moves
    exact (hc.contents_prefix hbase hf).trans (ih (Nat.le_trans hbase hc.size_le))

/-- A run in which nothing is defined is a run in which something may be. -/
theorem allow {global : Option FrameId}
    (hs : Steps { setting with global := none } n c h c' h') :
    Steps { setting with global } n c h c' h' := by
  induction hs with
  | refl => exact .refl _ _
  | head first _ ih =>
    obtain ⟨move, hnext, hregs, hc⟩ := first.moves
    exact .head ⟨⟨move, hnext, hregs, hc.allow⟩, first.sited, first.sound⟩ ih

end Steps

end

end LispMachine
