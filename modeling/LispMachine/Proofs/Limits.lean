import LispMachine.Proofs.Bracketing
import LispMachine.Proofs.History
import LispMachine.Proofs.Literals

/-!
# Data stay within the limit

Only `CONS` looks how deep data are. This is enough, as no other instruction makes a list deeper than
those that it finds: what is loaded from code is no deeper than the reader goes, and everything else is
moved. So every value that a machine holds is within the limit after each of its steps, if it was so
before (`Machine.Shallow.after`). That goes for the stack, for what is saved on the dump, for the code
that is still to be executed, and for every frame in the store, whether it can be reached or not.

A session starts with nothing, and keeps frames only, so it is within the limit after any history
(`Session.Reachable.shallow`).
-/

namespace LispMachine

/-! ## What a machine holds -/

/-- A value that is within the limit on lists. -/
def Value.Shallow (v : Value) : Prop := v.Within maxDataDepth

/-- What an entry of the dump saves is within the limit. -/
def DumpEntry.Shallow : DumpEntry → Prop
  | call stack _ code => (∀ v ∈ stack, v.Shallow) ∧ ∀ v ∈ code, v.Shallow
  | join code => ∀ v ∈ code, v.Shallow

/-- What the registers hold is within the limit. -/
structure Registers.Shallow (r : Registers) : Prop where
  stack : ∀ v ∈ r.stack, v.Shallow
  code : ∀ v ∈ r.code, v.Shallow
  dump : ∀ entry ∈ r.dump, entry.Shallow

/-- Every value in every frame is within the limit. -/
def Store.Shallow (store : Store) : Prop := ∀ f, ∀ v ∈ store.contents f, v.Shallow

/-- What an effect puts into the store is within the limit. -/
def Effect.Shallow : Effect → Prop
  | keep => True
  | alloc values | fill _ values => ∀ v ∈ values, v.Shallow
  | append _ v => v.Shallow

/-- Everything that a machine holds is within the limit. -/
structure Machine.Shallow (m : Machine) : Prop where
  registers : m.registers.Shallow
  store : m.store.Shallow

/-! ## Lists -/

namespace Value

theorem Within.depth_le {v : Value} {n : Nat} (h : v.Within n) : v.depth ≤ n := by
  rw [depth_eq_nesting]
  exact h.nesting_le

namespace Shallow
variable {v : Value} {vs : List Value}

theorem depth_le (h : v.Shallow) : v.depth ≤ maxDataDepth := Within.depth_le h

theorem items (h : Shallow (.list vs)) : ∀ v ∈ vs, v.Shallow :=
  allWithin_iff.mp (AllWithin.mono h (Nat.le_succ _))

theorem head (h : Shallow (.list (v :: vs))) : v.Shallow := h.items v List.mem_cons_self

theorem tail (h : Shallow (.list (v :: vs))) : Shallow (.list vs) := h.2

/-- What `CONS` makes sure of is what the list that it builds needs. -/
theorem cons (hv : v.Shallow) (hvs : Shallow (.list vs)) (hroom : v.depth < maxDataDepth) :
    Shallow (.list (v :: vs)) := by
  rw [depth_eq_nesting] at hroom
  exact ⟨Within.of_nesting_le hv (Nat.le_of_lt_succ hroom), hvs⟩

theorem code {env : Environment} (h : Shallow (.closure vs env)) : ∀ v ∈ vs, v.Shallow :=
  allWithin_iff.mp h

end Shallow

end Value

/-! ## Steps -/

namespace Store.Shallow
variable {store : Store}

theorem apply (h : store.Shallow) {effect : Effect} (heffect : effect.Shallow) :
    (store.apply effect).Shallow := by
  intro f v hv
  cases effect with
  | keep => exact h f v hv
  | alloc values =>
    rw [Store.apply, contents_alloc] at hv
    split at hv
    · exact heffect v hv
    · exact h f v hv
  | fill g values =>
    rw [Store.apply, contents_fill] at hv
    split at hv
    · exact heffect v hv
    · exact h f v hv
  | append g value =>
    rw [Store.apply, contents_append] at hv
    split at hv
    -- a global frame is extended by a value from the stack
    · rcases List.mem_append.mp hv with hv | hv
      · exact h f v hv
      · cases List.mem_singleton.mp hv
        exact heffect
    · exact h f v hv

theorem truncate (h : store.Shallow) (f : FrameId) (count : Nat) : (store.truncate f count).Shallow := by
  intro g v hv
  rw [contents_truncate] at hv
  split at hv
  · exact h g v (List.mem_of_mem_take hv)
  · exact h g v hv

/-- A variable stands in a frame. -/
theorem load (h : store.Shallow) {env : Environment} {depth offset : Number} {v : Value}
    (hload : store.load env depth offset = .ok v) : v.Shallow := by
  obtain ⟨f, -, hget⟩ := load_eq_ok hload
  exact h f v (List.mem_of_getElem? hget)

end Store.Shallow

theorem Store.shallow_fresh : (Store.empty.alloc []).Shallow := by
  have hempty : Store.empty.Shallow := fun f v hv => nomatch (show v ∈ [] from hv)
  exact hempty.apply (show Effect.Shallow (.alloc []) from List.forall_mem_nil _)

/-- An instruction that exchanges values gives values within the limit for such values. -/
theorem Exchanges.shallow {store : Store} {env : Environment} {op : Opcode} {taken given : Stack}
    {operands : Code} (h : Exchanges store env op taken operands given) (hstore : store.Shallow)
    (htaken : ∀ v ∈ taken, v.Shallow) (hoperands : ∀ v ∈ operands, v.Shallow) :
    ∀ v ∈ given, v.Shallow := by
  cases h with
  | nil => exact List.forall_mem_singleton.mpr trivial
  | ldc v => exact hoperands
  | ld loaded => exact List.forall_mem_singleton.mpr (hstore.load loaded)
  -- the depth of a block is that of a list, but a closure does not count as one
  | ldf code =>
    have hcode := List.forall_mem_singleton.mp hoperands
    exact List.forall_mem_singleton.mpr (allWithin_iff.mpr hcode.items)
  | cons tail room =>
    obtain ⟨hhead, htail⟩ := List.forall_mem_cons.mp htaken
    exact List.forall_mem_singleton.mpr (hhead.cons (List.forall_mem_singleton.mp htail) room)
  | car head tail => exact List.forall_mem_singleton.mpr (List.forall_mem_singleton.mp htaken).head
  | cdr head tail => exact List.forall_mem_singleton.mpr (List.forall_mem_singleton.mp htaken).tail
  | consp | numbers => exact List.forall_mem_singleton.mpr trivial
  | pop => exact List.forall_mem_nil _

/-- **What an instruction leaves is within the limit if what it finds is.** -/
theorem Performs.shallow {store : Store} {op : Opcode} {r r' : Registers} {effect : Effect}
    (h : Performs store op r r' effect) (hstore : store.Shallow) (hr : r.Shallow) :
    r'.Shallow ∧ effect.Shallow := by
  obtain ⟨hstack, hcode, hdump⟩ := hr
  cases h with
  | exchange taken given operands _ _ exchanges =>
    obtain ⟨htaken, hrest⟩ := List.forall_mem_append.mp hstack
    obtain ⟨hoperands, hcode⟩ := List.forall_mem_append.mp hcode
    have hgiven := exchanges.shallow hstore htaken hoperands
    exact ⟨⟨List.forall_mem_append.mpr ⟨hgiven, hrest⟩, hcode, hdump⟩, trivial⟩
  | ap | rap =>
    obtain ⟨hclosure, hrest⟩ := List.forall_mem_cons.mp hstack
    obtain ⟨hargs, hrest⟩ := List.forall_mem_cons.mp hrest
    exact ⟨⟨List.forall_mem_nil _, hclosure.code, List.forall_mem_cons.mpr ⟨⟨hrest, hcode⟩, hdump⟩⟩,
      hargs.items⟩
  | rtn =>
    obtain ⟨⟨hsaved, hcode⟩, hdump⟩ := List.forall_mem_cons.mp hdump
    have hv := (List.forall_mem_cons.mp hstack).1
    exact ⟨⟨List.forall_mem_cons.mpr ⟨hv, hsaved⟩, hcode, hdump⟩, trivial⟩
  | dum => exact ⟨⟨hstack, hcode, hdump⟩, List.forall_mem_nil _⟩
  | sel =>
    obtain ⟨hconsequent, hrest⟩ := List.forall_mem_cons.mp hcode
    obtain ⟨halternative, hrest⟩ := List.forall_mem_cons.mp hrest
    refine ⟨⟨(List.forall_mem_cons.mp hstack).2, ?_, List.forall_mem_cons.mpr ⟨hrest, hdump⟩⟩, trivial⟩
    split
    · exact hconsequent.items
    · exact halternative.items
  | join =>
    obtain ⟨hcode, hdump⟩ := List.forall_mem_cons.mp hdump
    exact ⟨⟨hstack, hcode, hdump⟩, trivial⟩
  | defun =>
    obtain ⟨hv, hrest⟩ := List.forall_mem_cons.mp hstack
    exact ⟨⟨hrest, hcode, hdump⟩, hv⟩

namespace Machine
variable {m last : Machine}

namespace Shallow

theorem step (h : m.Shallow) (hstep : m.step = .ok (some last)) : last.Shallow := by
  obtain ⟨move, hnext, rfl⟩ := step_eq_some_iff.mp hstep
  obtain ⟨r, hregisters, hperforms⟩ := performs_of_next hnext
  obtain ⟨hr, hstore⟩ := h
  rw [hregisters] at hr
  obtain ⟨hr', heffect⟩ :=
    hperforms.shallow hstore ⟨hr.stack, (List.forall_mem_cons.mp hr.code).2, hr.dump⟩
  exact ⟨hr', hstore.apply heffect⟩

theorem after (h : m.Shallow) {n : Nat} (hafter : m.after n = some last) : last.Shallow := by
  induction n generalizing m with
  | zero =>
    cases hafter
    exact h
  | succ n ih =>
    obtain ⟨next, hstep, hnext⟩ := after_eq_some_succ hafter
    exact ih (h.step hstep) hnext

theorem runWithLimit (h : m.Shallow) (limit : Nat) : (m.runWithLimit limit).2.Shallow := by
  obtain ⟨k, -, hk⟩ := exists_after_runFor limit limit m
  exact h.after hk

end Shallow

/-- A program starts within the limit over a store that is. -/
theorem shallow_start {code : Code} {n : Nat} (hcode : AllWithin code n) (hle : n ≤ maxDataDepth)
    (env : Environment) {store : Store} (hstore : store.Shallow) : (start code env store).Shallow where
  registers := ⟨List.forall_mem_nil _, allWithin_iff.mp (hcode.mono hle), List.forall_mem_nil _⟩
  store := hstore

/-- `CONS` finds out whether the list that it builds is too deep. -/
theorem Shallow.next_cons (h : m.Shallow) {origin : Option Span} {rest : Code} {head : Value} {tail : List Value}
    {S : Stack} (hcode : m.code = .op .cons origin :: rest) (hstack : m.stack = head :: .list tail :: S) :
    ((∃ e, m.next = .error e) ↔ maxDataDepth < (Value.list (head :: tail)).depth) ∧
      ∀ e, m.next = .error e → e = .dataTooDeep .cons maxDataDepth := by
  obtain ⟨⟨stack, env, code, D⟩, store, steps⟩ := m
  obtain rfl : code = _ := hcode
  obtain rfl : stack = _ := hstack
  have htail : (Value.list tail).depth ≤ maxDataDepth :=
    Value.Shallow.depth_le (h.registers.stack _ (List.mem_cons_of_mem _ List.mem_cons_self))
  have hdeep : maxDataDepth < (Value.list (head :: tail)).depth ↔ maxDataDepth ≤ head.depth := by
    rw [Value.depth_cons]
    omega
  -- within the limit, only the head can make the list too deep, and its depth is what CONS looks at
  rw [hdeep, next]
  simp only [perform_cons_list]
  by_cases hle : maxDataDepth ≤ head.depth
  · rw [if_pos hle]
    refine ⟨⟨fun _ => hle, fun _ => ⟨_, rfl⟩⟩, fun e he => ?_⟩
    cases he
    rfl
  · rw [if_neg hle]
    refine ⟨⟨?_, fun h => absurd h hle⟩, ?_⟩
    · rintro ⟨e, he⟩
      cases he
    · intro e he
      cases he

end Machine

/-! ## Sessions -/

namespace Session
variable {s : Session} {p : Program} {source : String}

theorem shallow_of_program (h : s.program source = .ok p) (env : Environment) {store : Store}
    (hstore : store.Shallow) : (Machine.start p.code env store).Shallow :=
  Machine.shallow_start (Program.code_within_of_ofRun h) (by decide) env hstore

theorem shallow_load (h : s.program source = .ok p) (hstore : s.store.Shallow) : (s.load p).Shallow :=
  shallow_of_program h _ (hstore.apply (show Effect.Shallow (.alloc s.values) from hstore s.globalFrame))

/-- Every request leaves the frames within the limit. -/
theorem shallow_answer (hs : s.store.Shallow) (r : Request) : (s.answer r).store.Shallow := by
  rw [answer_eq_answerBy]
  cases r with
  | limit steps => exact hs
  | eval source =>
    rw [answerBy]
    cases hp : s.program source with
    | error fault => exact hs
    | ok p =>
      have hrun := (shallow_of_program hp s.env hs).runWithLimit s.stepLimit
      show (s.execute p).2.store.Shallow
      rw [execute]
      cases hresult : (Machine.start p.code s.env s.store).runWithLimit s.stepLimit with
      | mk result m =>
        rw [hresult] at hrun
        cases result with
        | ok r => exact hrun.store
        | error e => exact hrun.store.truncate s.globalFrame s.values.length
  | machine source steps =>
    rw [answerBy]
    cases hp : s.program source with
    | error fault => exact hs
    | ok p => exact ((shallow_load hp hs).runWithLimit steps).store

theorem Reachable.shallow (hs : s.Reachable) : s.store.Shallow :=
  hs.of_answer (motive := fun s => s.store.Shallow) (fun _ => Store.shallow_fresh)
    fun _ r h => shallow_answer h r

end Session

/-- **Data stay within the limit.** Take a program that compiles in a session with a history, and a run of it
in the session or over a copy of the global frame. After each step, no value on the stack, in a stack that
is saved on the dump or in any frame is nested deeper than the limit. And a `CONS` that finds a list below
the top of the stack fails if and only if the list that it would build is nested deeper. -/
theorem data_stay_within_the_limit (s : Session) (hs : s.Reachable) (source : String) (compiled : Compiled)
    (hcompile : s.compile source = .ok compiled) (m : Machine)
    (hm : m = .start compiled.code s.env s.store ∨ s.machine source = .ok m) (n : Nat) (last : Machine)
    (hlast : m.after n = some last) :
    (∀ v ∈ last.stack, v.depth ≤ maxDataDepth) ∧
    (∀ S E C, .call S E C ∈ last.dump → ∀ v ∈ S, v.depth ≤ maxDataDepth) ∧
    (∀ f, ∀ v ∈ last.store.contents f, v.depth ≤ maxDataDepth) ∧
    ∀ origin rest head tail S, last.code = .op .cons origin :: rest →
      last.stack = head :: .list tail :: S →
      ((∃ e, last.next = .error e) ↔ maxDataDepth < (Value.list (head :: tail)).depth) ∧
        ∀ e, last.next = .error e → e = .dataTooDeep .cons maxDataDepth := by
  obtain ⟨p, hp, hcode, -⟩ := Session.compile_eq_ok hcompile
  have hstart : m.Shallow := by
    rcases hm with rfl | hm
    · rw [hcode]
      exact Session.shallow_of_program hp s.env hs.shallow
    · rw [Session.machine_eq, hp] at hm
      cases hm
      exact Session.shallow_load hp hs.shallow
  have h := hstart.after hlast
  refine ⟨fun v hv => (h.registers.stack v hv).depth_le, ?_, fun f v hv => (h.store f v hv).depth_le, ?_⟩
  · intro S E C hentry v hv
    have hsaved := h.registers.dump _ hentry
    exact (hsaved.1 v hv).depth_le
  · intro origin rest head tail S hcode hstack
    exact h.next_cons hcode hstack

theorem Machine.exists_of_opcode? {m : Machine} {op : Opcode} (h : m.code.head?.bind Value.opcode? = some op) :
    ∃ origin rest, m.code = .op op origin :: rest := by
  obtain ⟨v, hv, hop⟩ := Option.bind_eq_some_iff.mp h
  obtain ⟨rest, hcode⟩ := List.head?_eq_some_iff.mp hv
  cases v with
  | op code origin =>
    cases hop
    exact ⟨origin, rest, hcode⟩
  | _ => cases hop

theorem Machine.exists_of_items? {m : Machine} (h : (m.stack[1]?.bind Value.items?).isSome) :
    ∃ head tail S, m.stack = head :: .list tail :: S := by
  cases hstack : m.stack with
  | nil =>
    rw [hstack] at h
    cases h
  | cons head rest =>
    rw [hstack] at h
    cases rest with
    | nil => cases h
    | cons v S =>
      cases v with
      | list tail => exact ⟨head, tail, S, rfl⟩
      | _ => cases h

/-- The `CONS` in a call of a function from an earlier program, over a copy of the global frame. -/
theorem call_stays_within_the_limit :
    ∃ s compiled m last, s = Session.after {} [.eval "(define (f x) (cons x '(2)))"] ∧
      s.compile "(f '(1))" = .ok compiled ∧ s.machine "(f '(1))" = .ok m ∧ m.after 7 = some last ∧
      (∀ f, ∀ v ∈ last.store.contents f, v.depth ≤ maxDataDepth) ∧
      ∃ origin rest head tail S, last.code = .op .cons origin :: rest ∧
        last.stack = head :: .list tail :: S ∧
        ((∃ e, last.next = .error e) ↔ maxDataDepth < (Value.list (head :: tail)).depth) := by
  let s := Session.after {} [.eval "(define (f x) (cons x '(2)))"]
  have hcompiles : (s.compile "(f '(1))").isOk := by decide +kernel
  have hruns : (s.machine "(f '(1))").toOption.any fun m => (m.after 7).any fun last =>
      last.code.head?.bind Value.opcode? = some .cons ∧ (last.stack[1]?.bind Value.items?).isSome := by
    decide +kernel
  obtain ⟨compiled, hcompile⟩ := Except.exists_of_isOk hcompiles
  obtain ⟨m, hm, hafter⟩ := Except.exists_of_any hruns
  obtain ⟨last, hlast, hcons⟩ := (Option.any_eq_true _ _).mp hafter
  obtain ⟨-, -, hstore, hfails⟩ :=
    data_stay_within_the_limit s ⟨{}, _, rfl⟩ _ compiled hcompile m (.inr hm) 7 last hlast
  obtain ⟨hop, hlist⟩ := of_decide_eq_true hcons
  obtain ⟨origin, rest, hcode⟩ := Machine.exists_of_opcode? hop
  obtain ⟨head, tail, S, hstack⟩ := Machine.exists_of_items? hlist
  exact ⟨s, compiled, m, last, rfl, hcompile, hm, hlast, hstore, origin, rest, head, tail, S, hcode, hstack,
    (hfails origin rest head tail S hcode hstack).1⟩

end LispMachine
