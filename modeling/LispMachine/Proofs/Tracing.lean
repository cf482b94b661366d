import Mathlib.Data.Nat.Find
import LispMachine.Machine.Trace
import LispMachine.Proofs.Bracketing
import LispMachine.Proofs.Driving

/-!
# Histories and activations

A trace log finds the history of a step from depths alone. What it keeps while steps come in is, for each
depth, the last step of that depth behind which all steps are deeper (`Keeps.frontier`), whatever the
events are that it is fed with. So a node is linked to the last node of its depth, if all between them
are deeper, and otherwise to none. This is an invariant of the log, which one more event preserves
(`TraceLog.Keeps.record`).

That this is the step before it in the same activation is a fact about machines. A step pushes one entry
on the dump, or takes one, or leaves the dump as it is, so between two steps of one depth with only
deeper ones between them no entry that was there is taken. The history of a step in a run is therefore
what its activation did so far, all of it and nothing else (`trace_history_is_the_activation`).
-/

namespace LispMachine

/-! ## The history of an event -/

section
variable (events : List StepEvent)

/-- The dump behind the event with an index. -/
def dumpAt (i : Nat) : List DumpEntry := events[i]?.elim [] StepEvent.dump

/-- Before the event with index `bound`, the event with index `j` is the last one that is no deeper than a
depth, and it has that depth. -/
structure NewestAt (bound depth j : Nat) : Prop where
  older : j < bound
  same : (dumpAt events j).length = depth
  deeper : ∀ k, j < k → k < bound → depth < (dumpAt events k).length

/-- Event `j` is the last one before event `i` that has the same depth, and all between them are deeper. -/
def Precedes (j i : Nat) : Prop := NewestAt events i (dumpAt events i).length j

/-- Event `j` is not behind event `i` and was recorded with the same dump, and no entry of that dump was
taken between them. -/
structure SameActivation (j i : Nat) : Prop where
  le : j ≤ i
  same : dumpAt events j = dumpAt events i
  kept : ∀ k, j ≤ k → k ≤ i → dumpAt events i <:+ dumpAt events k

end

variable {events : List StepEvent} {e : StepEvent} {i j k depth : Nat}

theorem dumpAt_of_getElem? (h : events[i]? = some e) : dumpAt events i = e.dump := by
  rw [dumpAt, h]
  rfl

theorem dumpAt_append (h : i < events.length) (more : List StepEvent) :
    dumpAt (events ++ more) i = dumpAt events i := by
  rw [dumpAt, dumpAt, List.getElem?_append_left h]

theorem dumpAt_concat (events : List StepEvent) (e : StepEvent) :
    dumpAt (events ++ [e]) events.length = e.dump :=
  dumpAt_of_getElem? List.getElem?_concat_length

namespace NewestAt
variable {bound : Nat}

/-- Events that are added behind the bound make no difference. -/
theorem append_iff (hbound : bound ≤ events.length) (more : List StepEvent) :
    NewestAt (events ++ more) bound depth j ↔ NewestAt events bound depth j := by
  have hdump : ∀ k < bound, dumpAt (events ++ more) k = dumpAt events k :=
    fun k hk => dumpAt_append (Nat.lt_of_lt_of_le hk hbound) more
  constructor
  · intro h
    refine ⟨h.older, hdump j h.older ▸ h.same, fun k hjk hk => ?_⟩
    rw [← hdump k hk]
    exact h.deeper k hjk hk
  · intro h
    refine ⟨h.older, (hdump j h.older).symm ▸ h.same, fun k hjk hk => ?_⟩
    rw [hdump k hk]
    exact h.deeper k hjk hk

/-- One more event is the newest at its depth. It hides those that are deeper and leaves those that are
not so deep. -/
theorem concat_iff : NewestAt (events ++ [e]) (events.length + 1) depth j ↔
    depth = e.dumpDepth ∧ j = events.length ∨
      depth < e.dumpDepth ∧ NewestAt events events.length depth j := by
  have hlast : (dumpAt (events ++ [e]) events.length).length = e.dumpDepth := by
    rw [dumpAt_concat, StepEvent.dumpDepth]
  rw [← append_iff (Nat.le_refl events.length) [e]]
  constructor
  · intro h
    -- the newest is the event that was added, or that one is deeper and hides nothing
    rcases Nat.eq_or_lt_of_le (Nat.le_of_lt_succ h.older) with rfl | hlt
    · exact .inl ⟨h.same.symm.trans hlast, rfl⟩
    · have hdeep := h.deeper events.length hlt (Nat.lt_succ_self _)
      rw [hlast] at hdeep
      exact .inr ⟨hdeep, hlt, h.same, fun k hjk hk => h.deeper k hjk (Nat.lt_succ_of_lt hk)⟩
  · rintro (⟨rfl, rfl⟩ | ⟨hlt, h⟩)
    · exact ⟨Nat.lt_succ_self _, hlast, fun k hlt hk => absurd hk (Nat.not_lt_of_le hlt)⟩
    · refine ⟨Nat.lt_succ_of_lt h.older, h.same, fun k hjk hk => ?_⟩
      rcases Nat.eq_or_lt_of_le (Nat.le_of_lt_succ hk) with rfl | hk
      · rwa [hlast]
      · exact h.deeper k hjk hk

end NewestAt

/-! ## The log -/

namespace TraceLog

/-- The log of some events. -/
def ofEvents (events : List StepEvent) : TraceLog := events.foldl record {}

theorem getElem?_upTo (depth : Nat) (frontier : Array (Option Nat)) (k : Nat) :
    (upTo depth frontier)[k]? = if k ≤ depth then some frontier[k]?.join else none := by
  unfold upTo Array.rightpad
  rw [Array.getElem?_append, Array.getElem?_replicate, Array.size_shrink, Array.shrink_eq_take,
    Array.take_eq_extract, Array.getElem?_extract, Nat.zero_add]
  by_cases hk : k ≤ depth
  -- inside of the old frontier, between its end and the depth, and behind the depth
  · by_cases hin : k < frontier.size
    · rw [if_pos (by omega), if_pos (by omega), if_pos hk, Array.getElem?_eq_getElem hin]
      cases frontier[k] with
      | none => rfl
      | some i => rfl
    · rw [if_neg (by omega), if_pos (by omega), if_pos hk, Array.getElem?_eq_none (by omega)]
      rfl
  · rw [if_neg hk]
    split
    · rw [if_neg (by omega)]
    · rw [if_neg (by omega)]

/-- What a log keeps of the events that it was fed with. -/
structure Keeps (log : TraceLog) (events : List StepEvent) : Prop where
  size : log.size = events.length
  nodes : ∀ i e, events[i]? = some e → ∃ history, log.nodes[i]? = some (e.node history) ∧
    ∀ j, history = some j ↔ Precedes events j i
  frontier : ∀ depth j, log.frontier[depth]?.join = some j ↔ NewestAt events events.length depth j

/-- The frontier behind one more event. -/
theorem frontier_record (log : TraceLog) (e : StepEvent) (depth : Nat) :
    (log.record e).frontier[depth]?.join =
      if depth = e.dumpDepth then some log.nodes.size
      else if depth < e.dumpDepth then log.frontier[depth]?.join else none := by
  have hsize : e.dumpDepth < (upTo e.dumpDepth log.frontier).size := by
    have hlast := getElem?_upTo e.dumpDepth log.frontier e.dumpDepth
    rw [if_pos (Nat.le_refl _)] at hlast
    exact (Array.getElem?_eq_some_iff.mp hlast).1
  show ((upTo e.dumpDepth log.frontier).setIfInBounds e.dumpDepth (some log.nodes.size))[depth]?.join = _
  rw [Array.getElem?_setIfInBounds, if_pos hsize, getElem?_upTo]
  rcases Nat.lt_trichotomy depth e.dumpDepth with hlt | rfl | hlt
  · rw [if_neg (Nat.ne_of_gt hlt), if_pos (Nat.le_of_lt hlt), if_neg (Nat.ne_of_lt hlt), if_pos hlt]
    rfl
  · rw [if_pos rfl, if_pos rfl]
    rfl
  · rw [if_neg (Nat.ne_of_lt hlt), if_neg (Nat.not_le_of_lt hlt), if_neg (Nat.ne_of_gt hlt),
      if_neg (Nat.lt_asymm hlt)]
    rfl

theorem Keeps.record {log : TraceLog} (h : log.Keeps events) (e : StepEvent) :
    (log.record e).Keeps (events ++ [e]) where
  size := by
    rw [List.length_append, List.length_singleton, ← h.size]
    exact Array.size_push _
  nodes i e' hi := by
    have hnodes : (log.record e).nodes =
        log.nodes.push (e.node (upTo e.dumpDepth log.frontier)[e.dumpDepth]?.join) := rfl
    rw [hnodes, Array.getElem?_push]
    have hprecedes : ∀ j, Precedes (events ++ [e]) j i ↔
        NewestAt events i (dumpAt (events ++ [e]) i).length j := fun j =>
      NewestAt.append_iff (Nat.le_of_lt_succ (by simpa using (List.getElem?_eq_some_iff.mp hi).1)) [e]
    have hsize : log.nodes.size = events.length := h.size
    rcases Nat.lt_trichotomy i events.length with hlt | rfl | hlt
    -- a node that was there keeps its link
    · rw [if_neg (by omega)]
      rw [List.getElem?_append_left hlt] at hi
      obtain ⟨history, hnode, hhistory⟩ := h.nodes i e' hi
      refine ⟨history, hnode, fun j => (hhistory j).trans ?_⟩
      rw [hprecedes, dumpAt_append hlt]
      rfl
    -- the new node is linked to what the frontier has at its depth
    · rw [List.getElem?_concat_length] at hi
      cases hi
      refine ⟨_, if_pos hsize.symm, fun j => ?_⟩
      rw [getElem?_upTo, if_pos (Nat.le_refl _), Option.join_some, h.frontier, hprecedes, dumpAt_concat]
      rfl
    · exact absurd (List.getElem?_eq_some_iff.mp hi).1 (by simp; omega)
  frontier depth j := by
    rw [frontier_record, List.length_append, List.length_singleton, NewestAt.concat_iff]
    have hsize : log.nodes.size = events.length := h.size
    -- less deep than the new event, as deep, or deeper and cut off by it
    rcases Nat.lt_trichotomy depth e.dumpDepth with hlt | rfl | hlt
    · rw [if_neg (Nat.ne_of_lt hlt), if_pos hlt, h.frontier]
      simp [hlt, Nat.ne_of_lt hlt]
    · rw [if_pos rfl, hsize]
      simp [eq_comm]
    · rw [if_neg (Nat.ne_of_gt hlt), if_neg (Nat.lt_asymm hlt)]
      simp [Nat.ne_of_gt hlt, Nat.lt_asymm hlt]

theorem keeps_empty : ({} : TraceLog).Keeps [] where
  size := rfl
  nodes _ _ h := nomatch h
  frontier depth j := by
    constructor
    · intro h
      cases h
    · intro h
      cases h.older

theorem Keeps.foldl (more : List StepEvent) {log : TraceLog} {events : List StepEvent}
    (h : log.Keeps events) : (more.foldl TraceLog.record log).Keeps (events ++ more) := by
  induction more generalizing log events with
  | nil =>
    rw [List.append_nil]
    exact h
  | cons e more ih =>
    rw [← List.singleton_append, ← List.append_assoc]
    exact ih (h.record e)

/-- **A log keeps the events that it was fed with**, however deep their dumps are. -/
theorem keeps_ofEvents (events : List StepEvent) : (ofEvents events).Keeps events :=
  keeps_empty.foldl events

/-! ## Walking back

The log is walked from a node to what was there before it. Each step goes to an older node, so that the walk
ends and needs no more fuel than there are nodes.
-/

/-- The nodes that are found by going on from a node to its history until there is none. -/
inductive Walks (log : TraceLog) : Option Nat → List (Nat × TraceNode) → Prop
  | stop : Walks log none []
  | missing {i : Nat} (hnode : log.nodes[i]? = none) : Walks log (some i) []
  | node {i : Nat} {node : TraceNode} {rest : List (Nat × TraceNode)} (hnode : log.nodes[i]? = some node)
      (hrest : Walks log node.history rest) : Walks log (some i) ((i, node) :: rest)

/-- A history is walked to its end if links go to older nodes. -/
theorem walks_historyFrom {log : TraceLog}
    (hlinks : ∀ (i : Nat) (node : TraceNode) (j : Nat), log.nodes[i]? = some node →
      node.history = some j → j < i) {fuel : Nat} (hi : i < fuel) : log.Walks (some i) (log.historyFrom fuel i) := by
  induction fuel generalizing i with
  | zero => cases hi
  | succ fuel ih =>
    rw [historyFrom]
    cases hnode : log.nodes[i]? with
    | none => exact .missing hnode
    | some node =>
      refine .node hnode ?_
      cases hhistory : node.history with
      | none => exact .stop
      | some j => exact ih (Nat.lt_of_lt_of_le (hlinks i node j hnode hhistory) (Nat.le_of_lt_succ hi))

namespace Keeps
variable {log : TraceLog}

theorem getElem?_eq_some_iff (h : log.Keeps events) {node : TraceNode} :
    log.nodes[i]? = some node ↔ ∃ e history, events[i]? = some e ∧ node = e.node history ∧
      ∀ j, history = some j ↔ Precedes events j i := by
  constructor
  · intro hnode
    have hi : i < events.length := h.size ▸ (Array.getElem?_eq_some_iff.mp hnode).1
    obtain ⟨history, hnode', hhistory⟩ := h.nodes i _ (List.getElem?_eq_getElem hi)
    exact ⟨_, history, List.getElem?_eq_getElem hi, Option.some.inj (hnode.symm.trans hnode'), hhistory⟩
  · rintro ⟨e, history, he, rfl, hhistory⟩
    obtain ⟨history', hnode, hhistory'⟩ := h.nodes i e he
    rw [hnode, Option.ext fun j => (hhistory' j).trans (hhistory j).symm]

/-- Links are to the event that precedes. -/
theorem history_eq_some_iff (h : log.Keeps events) {node : TraceNode} (hnode : log.nodes[i]? = some node) :
    node.history = some j ↔ Precedes events j i := by
  obtain ⟨e, history, -, rfl, hhistory⟩ := h.getElem?_eq_some_iff.mp hnode
  exact hhistory j

theorem walks (h : log.Keeps events) (i : Nat) : log.Walks (some i) (log.history i) :=
  walks_historyFrom (fun _ _ _ hnode hhistory => ((h.history_eq_some_iff hnode).mp hhistory).older)
    (Nat.lt_succ_self i)

/-- The indexes of a history go down. -/
theorem decreasing (h : log.Keeps events) {start : Option Nat} {l : List (Nat × TraceNode)}
    (hwalk : log.Walks start l) :
    (∀ p ∈ l, ∃ i, start = some i ∧ p.1 ≤ i) ∧ (l.map (·.1)).Pairwise (· > ·) := by
  induction hwalk with
  | stop | missing => exact ⟨List.forall_mem_nil _, .nil⟩
  | @node i node rest hnode hrest ih =>
    obtain ⟨hle, hpairwise⟩ := ih
    have hlt : ∀ p ∈ rest, p.1 < i := by
      intro p hp
      obtain ⟨j, hhistory, hpj⟩ := hle p hp
      exact Nat.lt_of_le_of_lt hpj ((h.history_eq_some_iff hnode).mp hhistory).older
    refine ⟨List.forall_mem_cons.mpr ⟨⟨i, rfl, Nat.le_refl i⟩, fun p hp => ?_⟩, ?_⟩
    · exact ⟨i, rfl, Nat.le_of_lt (hlt p hp)⟩
    · rw [List.map_cons, List.pairwise_cons, List.forall_mem_map]
      exact ⟨hlt, hpairwise⟩

end Keeps

end TraceLog

/-! ## Activations

Two points of a run are in the same activation if no call between them is still open and none was closed that
had been open before. The dump decides this: both see the same entries, and all points between them have these
under their own.
-/

namespace SameActivation

theorem refl (events : List StepEvent) (i : Nat) : SameActivation events i i where
  le := Nat.le_refl i
  same := rfl
  kept k hle hle' := by
    rewrite [Nat.le_antisymm hle' hle]
    exact List.suffix_rfl

theorem trans (h : SameActivation events k j) (h' : SameActivation events j i) :
    SameActivation events k i where
  le := Nat.le_trans h.le h'.le
  same := h.same.trans h'.same
  kept l hkl hli := by
    rcases Nat.le_total l j with hlj | hjl
    · rw [← h'.same]
      exact h.kept l hkl hlj
    · exact h'.kept l hjl hli

/-- What is in the activation of an event and before it is not behind the event that precedes it. -/
theorem exists_precedes (h : SameActivation events k i) (hlt : k < i) :
    ∃ j, Precedes events j i ∧ SameActivation events k j := by
  -- the last event before `i` that is as deep
  let AsDeep := fun l => (dumpAt events l).length = (dumpAt events i).length
  let j := Nat.findGreatest AsDeep (i - 1)
  have hki : k ≤ i - 1 := Nat.le_sub_one_of_lt hlt
  have hdepth : AsDeep k := congrArg List.length h.same
  have hkj : k ≤ j := Nat.le_findGreatest hki hdepth
  have hji : j ≤ i - 1 := Nat.findGreatest_le (i - 1)
  have hspec : AsDeep j := Nat.findGreatest_spec hki hdepth
  have hsame : dumpAt events i = dumpAt events j := (h.kept j hkj (by omega)).eq_of_length hspec.symm
  refine ⟨j, ⟨by omega, hspec, fun l hjl hli => ?_⟩, hkj, h.same.trans hsame, fun l hkl hlj => ?_⟩
  · have hle := (h.kept l (Nat.le_trans hkj (Nat.le_of_lt hjl)) (Nat.le_of_lt hli)).length_le
    refine Nat.lt_of_le_of_ne hle fun heq => ?_
    exact Nat.findGreatest_is_greatest hjl (Nat.le_sub_one_of_lt hli) heq.symm
  · rw [← hsame]
    exact h.kept l hkl (by omega)

end SameActivation

/-- Each event is recorded with the dump of the one before it, or with more entries on it, or without
its newest entry. -/
def Nests (events : List StepEvent) : Prop :=
  ∀ i, i + 1 < events.length → dumpAt events i <:+ dumpAt events (i + 1) ∨
    ∃ entry, dumpAt events i = entry :: dumpAt events (i + 1)

/-- With only deeper events between them, two events of one depth are in one activation. -/
theorem Precedes.sameActivation (h : Precedes events j i) (hnests : Nests events)
    (hi : i < events.length) : SameActivation events j i := by
  have hkept : ∀ k, j ≤ k → k ≤ i → dumpAt events j <:+ dumpAt events k := by
    intro k hjk
    induction k, hjk using Nat.le_induction with
    | base => exact fun _ => List.suffix_rfl
    | succ k hjk ih =>
      intro hki
      have hsuffix := ih (Nat.le_of_succ_le hki)
      -- the dump grows, or an entry is taken, and that must be one that was added since event `j`
      rcases hnests k (by omega) with hgrows | ⟨entry, htaken⟩
      · exact hsuffix.trans hgrows
      · rw [htaken] at hsuffix
        refine (List.suffix_cons_iff.mp hsuffix).resolve_left fun hsame => ?_
        -- the entry would be missing before event `i` is reached, or there
        have hdepth : (dumpAt events (k + 1)).length < (dumpAt events i).length := by
          rw [← h.same, hsame]
          exact Nat.lt_succ_self _
        rcases Nat.eq_or_lt_of_le hki with rfl | hlt
        · exact Nat.lt_irrefl _ hdepth
        · exact Nat.lt_asymm hdepth (h.deeper (k + 1) (Nat.lt_succ_of_le hjk) hlt)
  have hsame : dumpAt events j = dumpAt events i :=
    (hkept i (Nat.le_of_lt h.older) (Nat.le_refl i)).eq_of_length h.same
  exact ⟨Nat.le_of_lt h.older, hsame, hsame ▸ hkept⟩

/-- A history is the activation of its first node, up to that node. -/
theorem TraceLog.Keeps.mem_iff {log : TraceLog} (h : log.Keeps events) (hnests : Nests events)
    {start : Option Nat} {l : List (Nat × TraceNode)} (hwalk : log.Walks start l)
    (hstart : start = some i) (hi : i < events.length) :
    k ∈ l.map (·.1) ↔ SameActivation events k i := by
  induction hwalk generalizing i with
  | stop => cases hstart
  | missing hnode =>
    cases hstart
    rw [← h.size] at hi
    exact absurd (Array.getElem?_eq_none_iff.mp hnode) (Nat.not_le_of_lt hi)
  | @node i node rest hnode hrest ih =>
    cases hstart
    have hlink : ∀ {j}, Precedes events j i → (k ∈ rest.map (·.1) ↔ SameActivation events k j) :=
      fun hj => ih ((h.history_eq_some_iff hnode).mpr hj) (Nat.lt_trans hj.older hi)
    rw [List.map_cons, List.mem_cons]
    constructor
    · rintro (rfl | hk)
      · exact .refl events _
      · cases hhistory : node.history with
        | none =>
          rw [hhistory] at hrest
          cases hrest
          cases hk
        | some j =>
          have hj := (h.history_eq_some_iff hnode).mp hhistory
          exact ((hlink hj).mp hk).trans (hj.sameActivation hnests hi)
    -- what else is in the activation is behind the link, so no node of it is skipped
    · intro hk
      rcases Nat.eq_or_lt_of_le hk.le with rfl | hlt
      · exact .inl rfl
      · obtain ⟨j, hj, hkj⟩ := hk.exists_precedes hlt
        exact .inr ((hlink hj).mpr hkj)

/-! ## Runs -/

/-- An instruction pushes one entry on the dump, takes one, or leaves the dump as it is. -/
theorem Performs.dump_cases {store : Store} {op : Opcode} {r r' : Registers} {effect : Effect}
    (h : Performs store op r r' effect) : r.dump <:+ r'.dump ∨ ∃ entry, r.dump = entry :: r'.dump := by
  cases h with
  | exchange | dum | defun => exact .inl List.suffix_rfl
  | ap | rap | sel => exact .inl (List.suffix_cons _ _)
  | rtn | join => exact .inr ⟨_, rfl⟩

namespace Machine
variable {m : Machine} {n : Nat}

/-- The events of a run are recorded with the dumps that its steps leave. -/
theorem dumpAt_events (hi : i < (m.events n).length) :
    ∃ last, m.after (i + 1) = some last ∧ dumpAt (m.events n) i = last.dump := by
  have he := List.getElem?_eq_getElem hi
  obtain ⟨-, before, move, hafter, hmove, heq⟩ := events_getElem?_iff.mp he
  refine ⟨_, Executes.after_succ ⟨hafter, hmove⟩, ?_⟩
  rw [dumpAt_of_getElem? he, heq]
  rfl

theorem nests_events (m : Machine) (n : Nat) : Nests (m.events n) := by
  intro i hi
  obtain ⟨last, hlast, hdump⟩ := dumpAt_events (Nat.lt_of_succ_lt hi)
  have he := List.getElem?_eq_getElem hi
  obtain ⟨-, before, move, hafter, hmove, heq⟩ := events_getElem?_iff.mp he
  rw [hlast] at hafter
  cases hafter
  rw [dumpAt_of_getElem? he, heq, hdump]
  obtain ⟨r, hregisters, hperforms⟩ := performs_of_next hmove
  have hr : last.dump = r.dump := by rw [dump, hregisters]
  rw [hr]
  exact hperforms.dump_cases

end Machine

/-- **The history of a step is what its activation did so far.** In the log of any events, a node is linked
to the last node of its depth, if all nodes between them are deeper, and else to none; so a history goes
down and ends. If the events are those of a run, a node and the one it is linked to were recorded with
the same dump, and the history of a node has the steps of its activation and no others. -/
theorem trace_history_is_the_activation :
    (∀ events : List StepEvent,
      (TraceLog.ofEvents events).size = events.length ∧
      (∀ i e, events[i]? = some e → ∃ history,
        (TraceLog.ofEvents events).nodes[i]? = some (e.node history) ∧
        ∀ j, history = some j ↔ Precedes events j i) ∧
      ∀ i, (TraceLog.ofEvents events).Walks (some i) ((TraceLog.ofEvents events).history i) ∧
        (((TraceLog.ofEvents events).history i).map (·.1)).Pairwise (· > ·)) ∧
    (∀ (m : Machine) (limit : Nat),
      (m.runTraced limit).2.1 = TraceLog.ofEvents (m.events limit) ∧
      ∀ i < (m.events limit).length,
        (∃ last, m.after (i + 1) = some last ∧ dumpAt (m.events limit) i = last.dump) ∧
        (∀ j, Precedes (m.events limit) j i → dumpAt (m.events limit) j = dumpAt (m.events limit) i) ∧
        ∀ k, k ∈ ((m.runTraced limit).2.1.history i).map (·.1) ↔ SameActivation (m.events limit) k i) := by
  refine ⟨fun events => ?_, fun m limit => ?_⟩
  · have hkeeps := TraceLog.keeps_ofEvents events
    exact ⟨hkeeps.size, hkeeps.nodes, fun i => ⟨hkeeps.walks i, (hkeeps.decreasing (hkeeps.walks i)).2⟩⟩
  · have hlog : (m.runTraced limit).2.1 = TraceLog.ofEvents (m.events limit) := by
      rw [Machine.runTraced, Machine.runWatched, Machine.runBounded_observed]
      rfl
    have hkeeps := TraceLog.keeps_ofEvents (m.events limit)
    have hnests := m.nests_events limit
    refine ⟨hlog, fun i hi => ⟨Machine.dumpAt_events hi, fun j hj => ?_, fun k => ?_⟩⟩
    · exact (hj.sameActivation hnests hi).same
    · rw [hlog]
      exact hkeeps.mem_iff hnests (hkeeps.walks i) rfl hi

/-- The code of `(+ 1 ((lambda (x) (* x 2)) 5))`. -/
def callInSum : Code :=
  [.op .nil none, .op .ldc none, .number 5, .op .cons none,
    .op .ldf none, .list [.op .ldc none, .number 2, .op .ld none, .number 0, .number 0, .op .mul none,
      .op .rtn none],
    .op .ap none, .op .ldc none, .number 1, .op .add none]

/-- The history of the sum goes from the `RTN` that ends the call to the `LDF` before it. -/
theorem sum_history_skips_the_call :
    ∃ (m : Machine) (events : List StepEvent), m = Machine.ofCode callInSum ∧ events = m.events 100 ∧
      (∃ e history, events[8]? = some e ∧ e.opcode = .rtn ∧
        (TraceLog.ofEvents events).nodes[8]? = some (e.node history) ∧
        ∀ j, history = some j ↔ Precedes events j 8) ∧
      ((m.runTraced 100).2.1.history 10).map (·.1) = [10, 9, 8, 3, 2, 1, 0] ∧
      SameActivation events 3 10 ∧ ¬ SameActivation events 5 10 := by
  let m := Machine.ofCode callInSum
  have hlength : (m.events 100).length = 11 := by decide +kernel
  have hchain : ((m.runTraced 100).2.1.history 10).map (·.1) = [10, 9, 8, 3, 2, 1, 0] := by decide +kernel
  have hop : ((m.events 100)[8]?.map (·.opcode)) = some .rtn := by decide +kernel
  obtain ⟨e, he, hop⟩ := Option.map_eq_some_iff.mp hop
  obtain ⟨history, hnode, hhistory⟩ := (trace_history_is_the_activation.1 (m.events 100)).2.1 8 e he
  have hactivation := ((trace_history_is_the_activation.2 m 100).2 10 (by rw [hlength]; decide)).2.2
  refine ⟨m, m.events 100, rfl, rfl, ⟨e, history, he, hop, hnode, hhistory⟩, hchain, ?_, ?_⟩
  · rw [← hactivation, hchain]
    decide
  · rw [← hactivation, hchain]
    decide

end LispMachine
