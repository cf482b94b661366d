import LispMachine.Proofs.Bracketing
import LispMachine.Proofs.History

/-!
# Bindings are assigned once

A frame of a compiled program gets its values once. `AP` makes a frame that has its values from the start.
`DUM` makes an empty frame, and one `RAP` gives it its values: the frames that wait for their `RAP` form a
stack, and a `RAP` fills the newest of them. The global frame only grows, by one `DEFUN` at a time. So a
variable that was loaded once is loaded with the same value ever after.

`Assigns` says once what a step of a compiled program can do to the store and to the frames that wait. That
it says all comes from the stages of a run (`Loaded.assigning`). What holds of a run is then proved of a
single step, and follows for the run by induction.
-/

namespace LispMachine

/-- The frames that wait to be filled behind an instruction, the newest first. -/
def Opcode.waiting (op : Opcode) (fresh : FrameId) (waiting : List FrameId) : List FrameId :=
  match op with
  | .dum => fresh :: waiting
  | .rap => waiting.tail
  | _ => waiting

/-- The frames that wait to be filled after so many steps: each `DUM` adds the frame that it makes, and
each `RAP` takes the newest one away. -/
def Machine.waiting (m : Machine) : Nat → List FrameId
  | 0 => []
  | n + 1 =>
    match m.after n with
    | none => m.waiting n
    | some before =>
      match before.next with
      | .ok (some move) => move.opcode.waiting before.store.size (m.waiting n)
      | _ => m.waiting n

/-- What an instruction of a compiled program can do to a store of some size: to the frames, and to those
of them that wait to be filled. -/
inductive Assigns (g : FrameId) (size : Nat) :
    Opcode → Effect → List FrameId → List FrameId → Prop
  | keep {op : Opcode} {w : List FrameId} : Assigns g size op .keep w w
  | call {args : List Value} {w : List FrameId} : Assigns g size .ap (.alloc args) w w
  | reserve {w : List FrameId} : Assigns g size .dum (.alloc []) w (size :: w)
  | fill {f : FrameId} {args : List Value} {w : List FrameId} :
      Assigns g size .rap (.fill f args) (f :: w) w
  | define {v : Value} {w : List FrameId} : Assigns g size .defun (.append g v) w w

/-- The frames that wait to be filled: each is younger than the run, is there once, and is empty. -/
structure Waits (base : Nat) (store : Store) (w : List FrameId) : Prop where
  base_le : base ≤ store.size
  young : ∀ f ∈ w, base ≤ f ∧ f < store.size
  nodup : w.Nodup
  empty : ∀ f ∈ w, store.contents f = []

/-! ## One step

Which frames a step may write to, in terms of the frames that wait for their `RAP`.
-/

theorem Store.contents_of_size_le {store : Store} {f : FrameId} (h : store.size ≤ f) :
    store.contents f = [] := by
  rw [Store.contents, Array.getD_eq_getD_getElem?, Array.getElem?_eq_none h]
  rfl

/-- A frame that is made changes none of those that are there. -/
theorem Store.contents_alloc_of_lt {store : Store} {f : FrameId} (h : f < store.size)
    (args : List Value) : (store.apply (.alloc args)).contents f = store.contents f := by
  rw [Store.apply, Store.contents_alloc, if_neg (Nat.ne_of_lt h)]

namespace Assigns
variable {g base : FrameId} {store : Store} {op : Opcode} {effect : Effect} {w w' : List FrameId}

theorem size_le (h : Assigns g store.size op effect w w') : store.size ≤ (store.apply effect).size := by
  cases h with
  | keep => exact Nat.le_refl _
  | call | reserve =>
    rw [Store.apply, Store.size_alloc]
    exact Nat.le_succ _
  | fill => exact Nat.le_of_eq (Store.size_fill store _ _).symm
  | define => exact Nat.le_of_eq (Store.size_append store _ _).symm

/-- A frame that does not wait keeps its values, the global frame apart. -/
theorem contents_eq (h : Assigns g store.size op effect w w') {f : FrameId} (hf : f < store.size)
    (hg : f ≠ g) (hw : f ∉ w) : (store.apply effect).contents f = store.contents f := by
  cases h with
  | keep => rfl
  | call | reserve => exact Store.contents_alloc_of_lt hf _
  | fill =>
    rw [Store.apply, Store.contents_fill, if_neg]
    rintro ⟨rfl, -⟩
    exact hw List.mem_cons_self
  | define =>
    rw [Store.apply, Store.contents_append, if_neg]
    rintro ⟨rfl, -⟩
    exact hg rfl

/-- A frame that does not wait will not wait again. -/
theorem not_mem (h : Assigns g store.size op effect w w') {f : FrameId} (hf : f < store.size)
    (hw : f ∉ w) : f ∉ w' := by
  cases h with
  | keep | call | define => exact hw
  | reserve =>
    rintro (_ | ⟨_, hmem⟩)
    · exact Nat.lt_irrefl _ hf
    · exact hw hmem
  | fill => exact fun hmem => hw (List.mem_cons_of_mem _ hmem)

/-- A step keeps what is known of the frames that wait. -/
theorem waits (h : Assigns g store.size op effect w w') (hg : g < base) (hwaits : Waits base store w) :
    Waits base (store.apply effect) w' := by
  have hsize := h.size_le
  have hbase : base ≤ (store.apply effect).size := Nat.le_trans hwaits.base_le hsize
  have hyoung : ∀ f ∈ w, base ≤ f ∧ f < (store.apply effect).size := fun f hf =>
    ⟨(hwaits.young f hf).1, Nat.lt_of_lt_of_le (hwaits.young f hf).2 hsize⟩
  cases h with
  | keep => exact hwaits
  | call =>
    refine ⟨hbase, hyoung, hwaits.nodup, fun f hf => ?_⟩
    exact (Store.contents_alloc_of_lt (hwaits.young f hf).2 _).trans (hwaits.empty f hf)
  | reserve =>
    -- the new frame is the one behind all that are there
    have hfresh : store.size ∉ w := fun hmem => Nat.lt_irrefl _ (hwaits.young _ hmem).2
    refine ⟨hbase, ?_, List.nodup_cons.mpr ⟨hfresh, hwaits.nodup⟩, ?_⟩
    · rintro f (_ | ⟨_, hf⟩)
      · rw [Store.apply, Store.size_alloc]
        exact ⟨hwaits.base_le, Nat.lt_succ_self _⟩
      · exact hyoung f hf
    · intro f hf
      rw [Store.apply, Store.contents_alloc]
      split
      next => rfl
      next hne => exact hwaits.empty f ((List.mem_cons.mp hf).resolve_left hne)
  | @fill f =>
    -- each frame waits once, so the others that wait are not filled with it
    obtain ⟨hout, hnodup⟩ := List.nodup_cons.mp hwaits.nodup
    refine ⟨hbase, fun f' hf => hyoung f' (List.mem_cons_of_mem _ hf), hnodup, fun f' hf => ?_⟩
    have hne : f' ≠ f := fun heq => hout (heq ▸ hf)
    rw [Store.apply, Store.contents_fill, if_neg fun heq => hne heq.1]
    exact hwaits.empty f' (List.mem_cons_of_mem _ hf)
  | define =>
    refine ⟨hbase, hyoung, hwaits.nodup, fun f hf => ?_⟩
    -- the global frame is older than the run, and so it is none of those that wait
    have hne : f ≠ g := Nat.ne_of_gt (Nat.lt_of_lt_of_le hg (hwaits.young f hf).1)
    rw [Store.apply, Store.contents_append, if_neg fun heq => hne heq.1]
    exact hwaits.empty f hf

/-- A frame that does not wait any more has been filled. -/
theorem eq_fill (h : Assigns g store.size op effect w w') {f : FrameId} (hw : f ∈ w) (hw' : f ∉ w') :
    op = .rap ∧ w = f :: w' ∧ ∃ args, effect = .fill f args := by
  cases h with
  | keep | call | define => exact absurd hw hw'
  | reserve => exact absurd (List.mem_cons_of_mem _ hw) hw'
  | fill =>
    rcases List.mem_cons.mp hw with rfl | hmem
    · exact ⟨rfl, rfl, _, rfl⟩
    · exact absurd hmem hw'

/-- Every frame only grows at its end. -/
theorem contents_grow (h : Assigns g store.size op effect w w') (hwaits : Waits base store w)
    (f : FrameId) : store.contents f <+: (store.apply effect).contents f := by
  by_cases hf : f < store.size
  · cases h with
    | keep => exact List.prefix_rfl
    | call | reserve => exact (Store.contents_alloc_of_lt hf _).symm ▸ List.prefix_rfl
    | fill =>
      rw [Store.apply, Store.contents_fill]
      split
      next heq =>
        -- a frame that is filled was empty
        rw [heq.1, hwaits.empty _ List.mem_cons_self]
        exact List.nil_prefix
      next => exact List.prefix_rfl
    | define =>
      rw [Store.apply, Store.contents_append]
      split
      next => exact List.prefix_append _ _
      next => exact List.prefix_rfl
  · rw [Store.contents_of_size_le (Nat.le_of_not_lt hf)]
    exact List.nil_prefix

/-- The global frame stays as it is, or is defined in. -/
theorem contents_global (h : Assigns g store.size op effect w w') (hg : g < base)
    (hwaits : Waits base store w) :
    (store.apply effect).contents g = store.contents g ∨
      op = .defun ∧ ∃ v, effect = .append g v ∧
        (store.apply effect).contents g = store.contents g ++ [v] := by
  have hsize : g < store.size := Nat.lt_of_lt_of_le hg hwaits.base_le
  cases h with
  | keep => exact .inl rfl
  | call | reserve => exact .inl (Store.contents_alloc_of_lt hsize _)
  | @fill f =>
    have hne : g ≠ f := Nat.ne_of_lt (Nat.lt_of_lt_of_le hg (hwaits.young f List.mem_cons_self).1)
    refine .inl ?_
    rw [Store.apply, Store.contents_fill, if_neg fun heq => hne heq.1]
  | define =>
    refine .inr ⟨rfl, _, rfl, ?_⟩
    rw [Store.apply, Store.contents_append, if_pos ⟨rfl, hsize⟩]

end Assigns

/-! ## A run

From one step to a run, by the number of the step at which something happens: a frame that is given its values
at one step is given them at no other.
-/

/-- Step `i` of a run is a `RAP` that gives a frame its values. -/
def Machine.Fills (m : Machine) (i : Nat) (f : FrameId) (args : List Value) : Prop :=
  ∃ before move, m.Executes i before move ∧ move.opcode = .rap ∧ move.effect = .fill f args

/-- A run whose steps do no more than `Assigns` says. -/
structure Machine.Assigning (m : Machine) (g : FrameId) : Prop where
  global_lt : g < m.store.size
  step : ∀ {i : Nat} {before : Machine} {move : Move}, m.Executes i before move →
    Assigns g before.store.size move.opcode move.effect (m.waiting i) (m.waiting (i + 1))

namespace Machine.Assigning
variable {m : Machine} {g f : FrameId} {i n : Nat} {a b before : Machine} {move : Move}

/-- What is known of the frames that wait holds at every step. -/
theorem waits (hm : m.Assigning g) (h : m.after n = some b) :
    Waits m.store.size b.store (m.waiting n) := by
  induction n generalizing b with
  | zero =>
    cases h
    exact ⟨Nat.le_refl _, List.forall_mem_nil _, List.nodup_nil, List.forall_mem_nil _⟩
  | succ n ih =>
    obtain ⟨before, move, hn⟩ := exists_executes h (Nat.lt_succ_self n)
    rw [hn.after_succ] at h
    cases h
    exact (hm.step hn).waits hm.global_lt (ih hn.reached)

/-- A frame that does not wait keeps its values for the rest of the run, the global frame apart. -/
theorem contents_eq (hm : m.Assigning g) (ha : m.after i = some a) (hle : i ≤ n)
    (hb : m.after n = some b) (hf : f < a.store.size) (hg : f ≠ g) (hw : f ∉ m.waiting i) :
    f < b.store.size ∧ f ∉ m.waiting n ∧ b.store.contents f = a.store.contents f := by
  induction hle generalizing b with
  | refl =>
    rw [ha] at hb
    cases hb
    exact ⟨hf, hw, rfl⟩
  | @step n hle ih =>
    obtain ⟨before, move, hn⟩ := exists_executes hb (Nat.lt_succ_self n)
    rw [hn.after_succ] at hb
    cases hb
    obtain ⟨hlt, hout, hcontents⟩ := ih hn.reached
    have hstep := hm.step hn
    refine ⟨Nat.lt_of_lt_of_le hlt hstep.size_le, hstep.not_mem hlt hout, ?_⟩
    exact (hstep.contents_eq hlt hg hout).trans hcontents

/-- Every frame only grows at its end, for the rest of the run. -/
theorem contents_grow (hm : m.Assigning g) (ha : m.after i = some a) (hle : i ≤ n)
    (hb : m.after n = some b) (f : FrameId) : a.store.contents f <+: b.store.contents f := by
  induction hle generalizing b with
  | refl =>
    rw [ha] at hb
    cases hb
    exact List.prefix_rfl
  | @step n hle ih =>
    obtain ⟨before, move, hn⟩ := exists_executes hb (Nat.lt_succ_self n)
    rw [hn.after_succ] at hb
    cases hb
    exact (ih hn.reached).trans ((hm.step hn).contents_grow (hm.waits hn.reached) f)

/-- A frame that is made by a step is none of those that wait, and is not the global frame. -/
theorem fresh (hm : m.Assigning g) (h : m.Executes i before move) :
    before.store.size ∉ m.waiting i ∧ before.store.size ≠ g := by
  have hwaits := hm.waits h.reached
  constructor
  · exact fun hmem => Nat.lt_irrefl _ (hwaits.young _ hmem).2
  · exact Nat.ne_of_gt (Nat.lt_of_lt_of_le hm.global_lt hwaits.base_le)

/-- `RAP` fills the newest of the frames that wait, which keeps its values for the rest of the run. -/
theorem contents_of_fills (hm : m.Assigning g) {args : List Value} (h : m.Fills i f args) :
    m.waiting i = f :: m.waiting (i + 1) ∧
      ∀ n b, i < n → m.after n = some b → f ∉ m.waiting n ∧ b.store.contents f = args := by
  obtain ⟨before, move, hi, hop, heffect⟩ := h
  have hstep := hm.step hi
  have hwaits := hm.waits hi.reached
  rw [hop, heffect] at hstep
  generalize m.waiting i = w at hstep hwaits
  generalize hw' : m.waiting (i + 1) = w' at hstep
  cases hstep with
  | fill =>
    have hout := (List.nodup_cons.mp hwaits.nodup).1
    obtain ⟨hbase, hlt⟩ := hwaits.young f List.mem_cons_self
    refine ⟨rfl, fun n b hin hb => ?_⟩
    have hstore : (before.advance move).store = before.store.fill f args := by
      rw [Machine.advance, heffect]
      rfl
    have hafter : f < (before.advance move).store.size := by
      rw [hstore, Store.size_fill]
      exact hlt
    obtain ⟨-, hnot, hcontents⟩ := hm.contents_eq hi.after_succ hin hb hafter
      (Nat.ne_of_gt (Nat.lt_of_lt_of_le hm.global_lt hbase)) (hw' ▸ hout)
    refine ⟨hnot, ?_⟩
    rw [hcontents, hstore, Store.contents_fill, if_pos ⟨rfl, hlt⟩]

/-- Only one `RAP` fills a frame. -/
theorem eq_of_fills (hm : m.Assigning g) {args args' : List Value} (hi : m.Fills i f args)
    (hn : m.Fills n f args') : n = i := by
  -- the later one of two would fill a frame that does not wait any more
  have hearlier : ∀ {i n : Nat} {args args' : List Value}, m.Fills i f args → m.Fills n f args' →
      ¬ i < n := by
    intro i n args args' hi hn hlt
    have hnewest := (hm.contents_of_fills hn).1
    obtain ⟨before, move, hexecutes, -, -⟩ := hn
    obtain ⟨hnot, -⟩ := (hm.contents_of_fills hi).2 n before hlt hexecutes.reached
    rw [hnewest] at hnot
    exact hnot List.mem_cons_self
  exact Nat.le_antisymm (Nat.le_of_not_lt (hearlier hi hn)) (Nat.le_of_not_lt (hearlier hn hi))

/-- A frame that `AP` makes has the arguments as its values for the rest of the run. -/
theorem contents_of_ap (hm : m.Assigning g) (h : m.Executes i before move) (hop : move.opcode = .ap) :
    ∃ closure args S, before.stack = closure :: .list args :: S ∧
      ∀ n b, i < n → m.after n = some b → b.store.contents before.store.size = args := by
  obtain ⟨r, hregisters, hperforms⟩ := performs_of_next h.moves
  rw [hop] at hperforms
  obtain ⟨code, env, args, S, hstack, -, heffect⟩ := hperforms.of_ap
  refine ⟨_, args, S, by rw [stack, hregisters, hstack], fun n b hin hb => ?_⟩
  have hstore : (before.advance move).store = before.store.alloc args := by
    rw [Machine.advance, heffect]
    rfl
  have hlt : before.store.size < (before.advance move).store.size := by
    rw [hstore, Store.size_alloc]
    exact Nat.lt_succ_self _
  obtain ⟨hfresh, hglobal⟩ := hm.fresh h
  -- `AP` makes a frame that has its values at once, and never waits
  have hout : before.store.size ∉ m.waiting (i + 1) := by
    have hstep := hm.step h
    rw [hop, heffect] at hstep
    generalize m.waiting (i + 1) = w' at hstep ⊢
    cases hstep with
    | call => exact hfresh
  obtain ⟨-, -, hcontents⟩ := hm.contents_eq h.after_succ hin hb hlt hglobal hout
  rw [hcontents, hstore, Store.contents_alloc, if_pos rfl]

/-- A frame that `DUM` makes is empty as long as it waits, and has the values of its `RAP` from then on. -/
theorem contents_of_dum (hm : m.Assigning g) (h : m.Executes i before move) (hop : move.opcode = .dum)
    (hin : i < n) (hb : m.after n = some b) :
    before.store.size ∈ m.waiting n ∧ b.store.contents before.store.size = [] ∨
    ∃ r args, i < r ∧ r < n ∧ m.Fills r before.store.size args ∧
      b.store.contents before.store.size = args := by
  induction hin generalizing b with
  | refl =>
    have hwaits := hm.waits hb
    obtain ⟨r, -, hperforms⟩ := performs_of_next h.moves
    have hstep := hm.step h
    rw [hop] at hperforms hstep
    rw [hperforms.of_dum.2] at hstep
    generalize m.waiting (i + 1) = w' at hstep hwaits ⊢
    cases hstep with
    | reserve => exact .inl ⟨List.mem_cons_self, hwaits.empty _ List.mem_cons_self⟩
  | @step n hin ih =>
    obtain ⟨middle, last, hn⟩ := exists_executes hb (Nat.lt_succ_self n)
    rcases ih hn.reached with ⟨hmem, -⟩ | ⟨r, args, hir, hrn, hfills, -⟩
    -- it has waited so far: it still does, or the step between is the `RAP` that fills it
    · by_cases hmem' : before.store.size ∈ m.waiting (n + 1)
      · exact .inl ⟨hmem', (hm.waits hb).empty _ hmem'⟩
      · obtain ⟨hrap, -, args, hfill⟩ := (hm.step hn).eq_fill hmem hmem'
        have hfills : m.Fills n before.store.size args := ⟨middle, last, hn, hrap, hfill⟩
        obtain ⟨-, hcontents⟩ := (hm.contents_of_fills hfills).2 _ b (Nat.lt_succ_self n) hb
        exact .inr ⟨n, args, hin, Nat.lt_succ_self n, hfills, hcontents⟩
    · have hrn' : r < n + 1 := Nat.lt_succ_of_lt hrn
      obtain ⟨-, hcontents⟩ := (hm.contents_of_fills hfills).2 _ b hrn' hb
      exact .inr ⟨r, args, hir, hrn', hfills, hcontents⟩

end Machine.Assigning

/-! ## The runs of programs -/

theorem Performs.waiting_of_keep {store : Store} {op : Opcode} {r r' : Registers}
    (h : Performs store op r r' .keep) (fresh : FrameId) (w : List FrameId) : op.waiting fresh w = w := by
  cases h with
  -- neither `DUM` nor `RAP` only takes values from the stack and puts others there
  | exchange _ _ _ counts => cases op <;> first | rfl | cases counts
  | rtn | sel | join => rfl

section
variable {setting : Setting} {op : Opcode} {effect : Effect} {h h' : Heap} {w w' : List FrameId}

/-- The frames that wait at a stage are those that the instructions make wait. -/
theorem Change.waiting_eq (hc : Change setting op effect h w h' w') {r r' : Registers}
    (hperforms : Performs h.image op r r' effect) : op.waiting h.image.size w = w' := by
  rw [Heap.size_image]
  cases hc with
  | keep => exact hperforms.waiting_of_keep _ _
  | call | reserve | fill | define => rfl

theorem Change.assigns {g : FrameId} (hc : Change setting op effect h w h' w')
    (hg : setting.global = some g) : Assigns g h.image.size op effect w w' := by
  rw [Heap.size_image]
  cases hc with
  | keep => exact .keep
  | call => exact .call
  | reserve => exact .reserve
  | fill => exact .fill
  | define o isGlobal =>
    obtain rfl := Option.some.inj (hg.symm.trans isGlobal)
    exact .define

/-- The last of some steps. -/
theorem Steps.last {n : Nat} {c c' : Control} (hs : Steps setting (n + 1) c h c' h') :
    ∃ c₁ h₁ move, Steps setting n c h c₁ h₁ ∧ (c.machine h 0).Executes n (c₁.machine h₁ (0 + n)) move ∧
      Change setting move.opcode move.effect h₁ c₁.waiting h' c'.waiting := by
  obtain ⟨c₁, h₁, hn, hlast⟩ := hs.split (Nat.le_succ n)
  rw [Nat.succ_sub (Nat.le_refl n), Nat.sub_self] at hlast
  cases hlast with
  | head first rest =>
    cases rest with
    | refl =>
      obtain ⟨move, hnext, -, hc⟩ := first.moves
      exact ⟨c₁, h₁, move, hn, ⟨hn.after 0, hnext⟩, hc⟩

theorem Steps.waiting_eq {n : Nat} {c c' : Control} (hs : Steps setting n c h c' h')
    (hw : c.waiting = []) : (c.machine h 0).waiting n = c'.waiting := by
  induction n generalizing c' h' with
  | zero =>
    cases hs with
    | refl => exact hw.symm
  | succ n ih =>
    obtain ⟨c₁, h₁, move, hn, hexecutes, hc⟩ := hs.last
    obtain ⟨r, -, hperforms⟩ := Machine.performs_of_next hexecutes.moves
    simp only [Machine.waiting, hexecutes.reached, hexecutes.moves, ih hn]
    exact hc.waiting_eq hperforms

end

/-- The steps of a program do no more than `Assigns` says. -/
theorem Loaded.assigning {site : Site} {g : FrameId} {names : List String} {p : Program} {h : Heap}
    (hp : Loaded site g names p h) : (Machine.start p.code [g] h.image).Assigning g := by
  refine ⟨?_, ?_⟩
  · show g < h.image.size
    rw [Heap.size_image]
    exact hp.global_lt
  · intro i before move hi
    -- the stages of a run carry the frames that wait along, and each is made by one change
    obtain ⟨c', h', -, hs, -⟩ := hp.reaches hi.after_succ
    obtain ⟨c₁, h₁, move', hn, hexecutes, hc⟩ := hs.last
    have hwaiting : (Machine.start p.code [g] h.image).waiting i = c₁.waiting := hn.waiting_eq rfl
    have hwaiting' : (Machine.start p.code [g] h.image).waiting (i + 1) = c'.waiting := hs.waiting_eq rfl
    obtain ⟨rfl, rfl⟩ := hi.unique hexecutes
    rw [hwaiting, hwaiting']
    exact hc.assigns rfl

/-! ## Variables -/

namespace Machine

/-- Step `i` of a run is a `LD` that reads a frame at an offset, and leaves a value on the stack. -/
def Loads (m : Machine) (i : Nat) (f : FrameId) (offset : Nat) (v : Value) : Prop :=
  ∃ before move origin depth number C, m.Executes i before move ∧
    before.code = .op .ld origin :: .number depth :: .number number :: C ∧
    before.env[depth.toInt.toNat]? = some f ∧ number.toInt.toNat = offset ∧
    (before.advance move).stack = v :: before.stack

variable {m : Machine} {g f : FrameId} {i offset : Nat} {v : Value}

theorem Loads.get? (h : m.Loads i f offset v) :
    ∃ before, m.after i = some before ∧ before.store.get? f offset = some v := by
  obtain ⟨⟨⟨S, E, code, D⟩, store, steps⟩, move, origin, depth, number, C, hi, hcode, hf, rfl, hstack⟩ := h
  refine ⟨_, hi.reached, ?_⟩
  obtain rfl : code = _ := hcode
  have hnext := hi.moves
  simp only [next, perform, Code.number, Code.operand, bind, Except.bind] at hnext
  cases hload : store.load E depth number with
  | error e =>
    rw [hload] at hnext
    cases hnext
  | ok v' =>
    rw [hload] at hnext
    cases hnext
    cases hstack
    obtain ⟨f', hf', hget⟩ := Store.load_eq_ok hload
    obtain rfl : f' = f := Option.some.inj (hf'.symm.trans hf)
    exact hget

/-- The frames of a run are assigned once: what each kind of frame can come to hold, at every step. -/
structure AssignsOnce (m : Machine) (g : FrameId) : Prop where
  /-- A frame that is older than the run never changes, the global frame apart. -/
  older : ∀ n b f, m.after n = some b → f < m.store.size → f ≠ g → b.store.contents f = m.store.contents f
  /-- A frame that `AP` makes holds the arguments, and never changes. -/
  called : ∀ i before move, m.Executes i before move → move.opcode = .ap →
    ∃ closure args S, before.stack = closure :: .list args :: S ∧
      ∀ n b, i < n → m.after n = some b → b.store.contents before.store.size = args
  /-- A frame that `DUM` makes is empty until a `RAP` fills it, and never changes after that. -/
  reserved : ∀ i before move, m.Executes i before move → move.opcode = .dum →
    ∀ n b, i < n → m.after n = some b →
      (b.store.contents before.store.size = [] ∧ ∀ r < n, ∀ args, ¬ m.Fills r before.store.size args) ∨
      ∃ r args, i < r ∧ r < n ∧ m.Fills r before.store.size args ∧
        b.store.contents before.store.size = args
  /-- A `RAP` fills the newest of the frames that wait for one, and no other `RAP` fills it. -/
  filled : ∀ i before move, m.Executes i before move → move.opcode = .rap →
    ∃ f args rest, m.waiting i = f :: rest ∧ move.effect = .fill f args ∧
      ∀ r args', m.Fills r f args' → r = i
  /-- The global frame stays as it is, or `DEFUN` puts the top of the stack at its end. -/
  global : ∀ i before move, m.Executes i before move →
    (before.advance move).store.contents g = before.store.contents g ∨
    move.opcode = .defun ∧ ∃ v S, before.stack = v :: S ∧
      (before.advance move).store.contents g = before.store.contents g ++ [v]
  /-- A variable is loaded with the same value every time. -/
  loaded : ∀ i n f offset v v', m.Loads i f offset v → m.Loads n f offset v' → v = v'

theorem Assigning.loads_eq (hm : m.Assigning g) {n : Nat} {v' : Value} (hi : m.Loads i f offset v)
    (hn : m.Loads n f offset v') : v = v' := by
  -- what is in a frame stays there, so it is enough to look at the later of the two
  have hlater : ∀ {i n : Nat} {v v' : Value}, m.Loads i f offset v → m.Loads n f offset v' → i ≤ n →
      v = v' := by
    intro i n v v' hi hn hle
    obtain ⟨a, ha, hv⟩ := hi.get?
    obtain ⟨b, hb, hv'⟩ := hn.get?
    obtain ⟨added, hadded⟩ := hm.contents_grow ha hle hb f
    have hlt : offset < (a.store.contents f).length := (List.getElem?_eq_some_iff.mp hv).1
    rw [Store.get?, ← hadded, List.getElem?_append_left hlt] at hv'
    exact Option.some.inj (hv.symm.trans hv')
  rcases Nat.le_total i n with hle | hle
  · exact hlater hi hn hle
  · exact (hlater hn hi hle).symm

theorem Assigning.assignsOnce (hm : m.Assigning g) : m.AssignsOnce g where
  older n b f hb hf hg := (hm.contents_eq rfl (Nat.zero_le n) hb hf hg (List.not_mem_nil)).2.2
  called i before move h hop := hm.contents_of_ap h hop
  reserved i before move h hop n b hin hb := by
    refine (hm.contents_of_dum h hop hin hb).imp_left ?_
    rintro ⟨hwaiting, hempty⟩
    refine ⟨hempty, fun r hr args hfills => ?_⟩
    exact ((hm.contents_of_fills hfills).2 n b hr hb).1 hwaiting
  filled i before move h hop := by
    obtain ⟨r, -, hperforms⟩ := performs_of_next h.moves
    rw [hop] at hperforms
    obtain ⟨code, f, env, args, S, f', E, -, -, -, heffect⟩ := hperforms.of_rap
    have hfills : m.Fills i f args := ⟨before, move, h, hop, heffect⟩
    exact ⟨f, args, _, (hm.contents_of_fills hfills).1, heffect, fun r args' => hm.eq_of_fills hfills⟩
  global i before move h := by
    have hglobal := (hm.step h).contents_global hm.global_lt (hm.waits h.reached)
    refine hglobal.imp_right ?_
    rintro ⟨hop, v, heffect, hcontents⟩
    obtain ⟨r, hregisters, hperforms⟩ := performs_of_next h.moves
    rw [hop, heffect] at hperforms
    obtain ⟨v', S, f, hstack, -, -, hv⟩ := hperforms.of_defun
    cases hv
    exact ⟨hop, v, S, by rw [stack, hregisters, hstack], hcontents⟩
  loaded i n f offset v v' hi hn := hm.loads_eq hi hn

end Machine

/-- **Bindings are assigned once.** In every run of a compiled program, in a session with a history or over
a copy of its global frame, a frame gets its values once, and the global frame only grows. So a variable is
loaded with the same value every time. -/
theorem bindings_are_assigned_once (s : Session) (hs : s.Reachable) (source : String)
    (compiled : Compiled) (hcompile : s.compile source = .ok compiled) :
    (Machine.start compiled.code s.env s.store).AssignsOnce s.globalFrame ∧
    ∀ m, s.machine source = .ok m → m.AssignsOnce s.store.size := by
  obtain ⟨p, hp, hcode, -⟩ := Session.compile_eq_ok hcompile
  obtain ⟨h, hh⟩ := hs.kept.heap
  have hscoped := Session.scoped_of_program hp
  constructor
  · have hrun := (hh.loaded hscoped).assigning.assignsOnce
    rw [hh.image, ← hcode] at hrun
    exact hrun
  · intro m hm
    rw [Session.machine_eq, hp] at hm
    cases hm
    obtain ⟨hloaded, hload⟩ := hh.load hscoped
    have hrun := hloaded.assigning.assignsOnce
    rw [← hload, ← Heap.size_image, hh.image] at hrun
    exact hrun

/-- A function that is bound by `letrec` and calls itself, in a session that defines what it uses. -/
theorem recursive_binding_is_assigned_once :
    ∃ (s : Session) (compiled : Compiled) (copy : Machine),
      s = Session.after {} [.eval "(define (minus n) (- n 1))"] ∧
      s.compile "(define k (letrec ((f (lambda (n) (if (= n 0) 1 (f (minus n)))))) (f 2))) k" =
        .ok compiled ∧
      s.machine "(define k (letrec ((f (lambda (n) (if (= n 0) 1 (f (minus n)))))) (f 2))) k" = .ok copy ∧
      (Machine.start compiled.code s.env s.store).AssignsOnce s.globalFrame ∧
      copy.AssignsOnce s.store.size := by
  let s := Session.after {} [.eval "(define (minus n) (- n 1))"]
  let source := "(define k (letrec ((f (lambda (n) (if (= n 0) 1 (f (minus n)))))) (f 2))) k"
  have hok : (s.compile source).isOk = true := by decide +kernel
  have hok' : (s.machine source).isOk = true := by decide +kernel
  obtain ⟨compiled, hcompile⟩ := Except.exists_of_isOk hok
  obtain ⟨copy, hcopy⟩ := Except.exists_of_isOk hok'
  obtain ⟨hrun, hload⟩ := bindings_are_assigned_once s ⟨_, _, rfl⟩ source compiled hcompile
  exact ⟨s, compiled, copy, rfl, hcompile, hcopy, hrun, hload copy hcopy⟩

end LispMachine
