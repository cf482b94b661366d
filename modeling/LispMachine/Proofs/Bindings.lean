import Mathlib.Data.List.Induction
import Mathlib.Data.String.Basic
import LispMachine.Proofs.History

/-!
# The bindings of a session

`Session.bindings` goes over the names of a session, drops what repeats an earlier name, looks each name
up and sorts what it finds. What it must give is said without any of this: a history makes definitions,
one after the other (`Session.Chronicle`), and a name is bound to the value of its newest definition.

Every history has a chronicle (`Session.exists_chronicle`), and the names and the values of the session
are those of its chronicle, in the same order (`Session.Chronicle.holds`). So the place of a name's last
occurrence is the place of the value of its newest definition, and no name is dropped for want of a value.
-/

namespace LispMachine

/-! ## What a history defines -/

/-- The definitions that were made in a history, each with the value that it was evaluated to, the oldest
first. A program makes its definitions if it runs to its end, and a program that fails makes none. -/
inductive Session.Chronicle (d : Dialect) : List Request → List (String × Value) → Prop
  | fresh : Chronicle d [] []
  | defines {history : List Request} {log : List (String × Value)} {source : String} {r : Option Value}
    {s' : Session} {p : Program} {h h' : Heap} {fuel : Nat} {defs : List (String × Object)}
    (hlog : Chronicle d history log) (heval : (after d history).eval source = (.ok r, s'))
    (hprogram : (after d history).program source = .ok p)
    (hheap : Represents .anywhere h (after d history))
    (hdefs : Program.Defines (applyWith fuel) (after d history).globalFrame (after d history).globals p h
      defs h') :
    Chronicle d (history ++ [.eval source]) (log ++ defs.map fun b => (b.1, b.2.image))
  | fails {history : List Request} {log : List (String × Value)} {source : String} {e : Error}
    {s' : Session} (hlog : Chronicle d history log)
    (heval : (after d history).eval source = (.error e, s')) :
    Chronicle d (history ++ [.eval source]) log
  /-- A change of the limit, or a machine over a copy of the global frame. -/
  | other {history : List Request} {log : List (String × Value)} {r : Request}
    (hlog : Chronicle d history log) (hr : ∀ source, r ≠ .eval source) :
    Chronicle d (history ++ [r]) log

/-- The value of the newest definition of a name. -/
def newest? (name : String) (log : List (String × Value)) : Option Value := log.reverse.lookup name

namespace Session
variable {s : Session} {d : Dialect} {history : List Request} {log : List (String × Value)} {name : String}
  {v : Value}

/-- The names and the values of a session are those of some definitions, in order. -/
structure Holds (s : Session) (log : List (String × Value)) : Prop where
  names : s.globals = log.map (·.1)
  values : s.values = log.map (·.2)

theorem after_concat (d : Dialect) (history : List Request) (r : Request) :
    after d (history ++ [r]) = (after d history).answer r := by
  rw [after, after, List.foldl_append]
  rfl

/-- A request that evaluates no source leaves the names and the values as they are. -/
theorem Holds.answer_other (hs : Kept .anywhere s) (hlog : s.Holds log) {r : Request}
    (hr : ∀ source, r ≠ .eval source) : (s.answer r).Holds log := by
  cases r with
  | eval source => exact absurd rfl (hr source)
  | limit steps => exact ⟨hlog.names, hlog.values⟩
  | machine source steps =>
    rw [answer_eq_answerBy, answerBy]
    cases hp : s.program source with
    | error fault => exact hlog
    | ok p =>
      obtain ⟨h, hh⟩ := hs.heap
      obtain ⟨h', hh', -, hkeep⟩ := hh.run_load (scoped_of_program hp) steps
      exact ⟨hlog.names, (hh.values_of_contents hh' rfl hkeep).trans hlog.values⟩

/-- What evaluations that run to their ends define is in the session, and other evaluations leave the names
and the values as they are. So the session holds each chronicle of its history. -/
theorem Chronicle.holds (hlog : Chronicle d history log) : (after d history).Holds log := by
  induction hlog with
  | fresh => exact ⟨rfl, rfl⟩
  | @defines history log source r s' p h h' fuel defs _ heval hprogram hheap hdefs ih =>
    have hanswer : (after d history).answer (.eval source) = s' := congrArg Prod.snd heval
    rw [after_concat, hanswer]
    rw [eval_eq, hprogram] at heval
    obtain ⟨hglobals, hvalues⟩ := hheap.execute_defines (scoped_of_program hprogram) heval hdefs
    constructor
    · rw [hglobals, ih.names, List.map_append, List.map_map]
      rfl
    · rw [hvalues, ih.values, List.map_append, List.map_map]
      rfl
  | @fails history log source e s' _ heval ih =>
    have hanswer : (after d history).answer (.eval source) = s' := congrArg Prod.snd heval
    rw [after_concat, hanswer]
    rw [eval_eq] at heval
    cases hprogram : (after d history).program source with
    | error fault =>
      rw [hprogram] at heval
      cases heval
      exact ih
    | ok p =>
      simp only [hprogram] at heval
      obtain ⟨h, hh⟩ := (Reachable.kept ⟨d, history, rfl⟩ : Kept .anywhere (after d history)).heap
      obtain ⟨hglobals, hglobal, h', hh', -, hkeep⟩ := hh.execute_error (scoped_of_program hprogram) heval
      exact ⟨hglobals.trans ih.names, (hh.values_of_contents hh' hglobal hkeep).trans ih.values⟩
  | @other history log r _ hr ih =>
    rw [after_concat]
    exact ih.answer_other (Reachable.kept ⟨d, history, rfl⟩) hr

/-- An evaluation goes into the chronicle with what it defines. -/
theorem Chronicle.eval (hlog : Chronicle d history log) (source : String) :
    ∃ log', Chronicle d (history ++ [.eval source]) log' := by
  cases heval : (after d history).eval source with
  | mk result s' =>
    cases result with
    | error e => exact ⟨log, .fails hlog heval⟩
    | ok r =>
      have hrun := heval
      rw [eval_eq] at hrun
      cases hprogram : (after d history).program source with
      | error fault =>
        rw [hprogram] at hrun
        cases hrun
      | ok p =>
        simp only [hprogram] at hrun
        obtain ⟨h, hh⟩ := (Reachable.kept ⟨d, history, rfl⟩ : Kept .anywhere (after d history)).heap
        obtain ⟨_, _, _, _, -, -, -, hdefs, -⟩ := hh.execute_ok (scoped_of_program hprogram) hrun
        exact ⟨_, .defines hlog heval hprogram hh hdefs⟩

/-- **Every history has a chronicle.** -/
theorem exists_chronicle (d : Dialect) (history : List Request) : ∃ log, Chronicle d history log := by
  induction history using List.reverseRecOn with
  | nil => exact ⟨[], .fresh⟩
  | append_singleton history r ih =>
    obtain ⟨log, hlog⟩ := ih
    cases r with
    | eval source => exact hlog.eval source
    | limit | machine => exact ⟨log, .other hlog nofun⟩

/-! ## Looking names up -/

/-- The last occurrence of a name is at the place of its newest definition. -/
theorem newest?_eq (name : String) (log : List (String × Value)) :
    newest? name log = (lastIndex? name (log.map (·.1))).bind fun i => (log.map (·.2))[i]? := by
  induction log with
  | nil => rfl
  | cons b log ih =>
    obtain ⟨bound, v⟩ := b
    have hcons : newest? name ((bound, v) :: log) = (newest? name log).or ([(bound, v)].lookup name) := by
      rw [newest?, newest?, List.reverse_cons, List.lookup_append]
    rw [hcons, ih, List.map_cons, List.map_cons, lastIndex?]
    cases hi : lastIndex? name (log.map (·.1)) with
    -- a newer definition behind the first one decides; the first counts only if there is none
    | some i =>
      have hlt : i < (log.map (·.2)).length := by
        have hlt := lastIndex?_lt hi
        rwa [List.length_map] at hlt ⊢
      show ((log.map (·.2))[i]?).or _ = ((v :: log.map (·.2))[i + 1]?)
      rw [List.getElem?_cons_succ, List.getElem?_eq_getElem hlt, Option.some_or]
    | none =>
      by_cases hbound : bound = name
      · subst hbound
        rw [if_pos rfl, List.lookup_cons, BEq.rfl]
        rfl
      · have hne : (name == bound) = false := beq_false_of_ne (Ne.symm hbound)
        rw [if_neg hbound, List.lookup_cons, hne]
        rfl

theorem Holds.lookup_eq (h : s.Holds log) (name : String) : s.lookup name = newest? name log := by
  rw [newest?_eq, ← h.names, ← h.values]
  rfl

/-- Every global name has a value. -/
theorem Holds.exists_lookup (h : s.Holds log) (hname : name ∈ s.globals) : ∃ v, s.lookup name = some v := by
  have hsome : lastIndex? name s.globals ≠ none := fun hnone => lastIndex?_eq_none_iff.mp hnone hname
  obtain ⟨i, hi⟩ := Option.ne_none_iff_exists'.mp hsome
  have hlt : i < s.values.length := by
    rw [h.values, List.length_map, ← List.length_map, ← h.names]
    exact lastIndex?_lt hi
  refine ⟨s.values[i], ?_⟩
  rw [lookup, hi]
  exact List.getElem?_eq_getElem hlt

/-! ## Bindings -/

theorem nodup_eraseDups (names : List String) : names.eraseDups.Nodup := by
  match names with
  | [] => exact List.nodup_nil
  | name :: names =>
    have hlength : (names.filter fun other => !other == name).length ≤ names.length :=
      List.length_filter_le ..
    rw [List.eraseDups_cons, List.nodup_cons]
    refine ⟨fun hmem => ?_, nodup_eraseDups _⟩
    have hother := List.of_mem_filter (List.mem_eraseDups.mp hmem)
    rw [BEq.rfl] at hother
    cases hother
termination_by names.length
decreasing_by exact Nat.lt_succ_of_le hlength

theorem mem_bindings : (name, v) ∈ s.bindings ↔ name ∈ s.globals ∧ s.lookup name = some v := by
  rw [bindings, List.mem_mergeSort, List.mem_filterMap]
  constructor
  · rintro ⟨name', hname, hvalue⟩
    obtain ⟨v', hlookup, heq⟩ := Option.map_eq_some_iff.mp hvalue
    cases heq
    exact ⟨List.mem_eraseDups.mp hname, hlookup⟩
  · rintro ⟨hname, hlookup⟩
    refine ⟨name, List.mem_eraseDups.mpr hname, ?_⟩
    rw [hlookup]
    rfl

/-- The bindings are in the order of the names, and none has the name of another. -/
theorem pairwise_bindings (s : Session) : s.bindings.Pairwise fun b b' => b.1 < b'.1 := by
  have hsorted : s.bindings.Pairwise fun b b' => decide (b.1 ≤ b'.1) = true := by
    refine List.pairwise_mergeSort (fun _ _ _ h h' => ?_) (fun b b' => ?_) _
    · exact decide_eq_true (String.le_trans (of_decide_eq_true h) (of_decide_eq_true h'))
    · rw [Bool.or_eq_true, decide_eq_true_eq, decide_eq_true_eq]
      exact String.le_total b.1 b'.1
  have hdistinct : s.bindings.Pairwise fun b b' => b.1 ≠ b'.1 := by
    refine ((List.mergeSort_perm _ _).pairwise_iff fun h => h.symm).mpr ?_
    refine List.Pairwise.filterMap _ (fun name name' hne b hb b' hb' heq => hne ?_)
      (nodup_eraseDups s.globals)
    obtain ⟨_, -, rfl⟩ := Option.map_eq_some_iff.mp hb
    obtain ⟨_, -, rfl⟩ := Option.map_eq_some_iff.mp hb'
    exact heq
  exact hsorted.imp₂ (fun b b' hle hne => lt_of_le_of_ne (of_decide_eq_true hle) hne) hdistinct

end Session

/-- **The bindings of a session are its visible definitions.** After any history, they are strictly in the
order of their names, there is one for each global name and no other, and its value is the one that the
name is looked up as: the value of the newest definition of the name in the chronicle of the history. -/
theorem bindings_are_newest_definitions (d : Dialect) (history : List Request) :
    ((Session.after d history).bindings.Pairwise fun b b' => b.1 < b'.1) ∧
    (∀ name, (∃ v, (name, v) ∈ (Session.after d history).bindings) ↔
      name ∈ (Session.after d history).globals) ∧
    (∃ log, Session.Chronicle d history log) ∧
    ∀ log, Session.Chronicle d history log → ∀ name v, (name, v) ∈ (Session.after d history).bindings →
      (Session.after d history).lookup name = some v ∧ newest? name log = some v := by
  obtain ⟨log, hlog⟩ := Session.exists_chronicle d history
  refine ⟨Session.pairwise_bindings _, fun name => ⟨?_, ?_⟩, ⟨log, hlog⟩, ?_⟩
  · rintro ⟨v, hmem⟩
    exact (Session.mem_bindings.mp hmem).1
  · intro hname
    obtain ⟨v, hv⟩ := hlog.holds.exists_lookup hname
    exact ⟨v, Session.mem_bindings.mpr ⟨hname, hv⟩⟩
  · intro log' hlog' name v hmem
    obtain ⟨-, hv⟩ := Session.mem_bindings.mp hmem
    exact ⟨hv, (hlog'.holds.lookup_eq name).symm.trans hv⟩

/-- Two names, of which the first was defined again: it has its newest value, and comes second. -/
example :
    let s : Session := { globals := ["y", "x", "y"], store := ⟨#[[.number 1, .number 2, .number 3]]⟩ }
    s.bindings = [("x", .number 2), ("y", .number 3)] := by
  cbv

end LispMachine
