import LispMachine.Session.Dialogue
import LispMachine.Proofs.Increments
import LispMachine.Proofs.Preview
import LispMachine.Proofs.Stability

/-!
# Stepping through a source

In a dialogue, `:step` goes through a source one instruction at a time, on a machine over a copy of the
global frame, and what it tells last is what came of it. That is what an evaluation of the line would come
to (`Session.last_stepLines`), with one difference. An evaluation that has spent its budget looks whether
the machine is halted. `:step` looks at its budget first, so a program that halts with the very last step
that it may take is told to have been stopped.

What is told is text, and a value can look like the remark that there is none: the list of the one symbol
`nothing` is shown in the same way.

Both runs end for one of three reasons, and a run ends once (`Tells.of_halted`, `Tells.of_error`,
`Tells.of_after`), so it is enough to look at the end of the evaluation. That the copy comes to the same end is
`Session.Settled.load_sameOutcome`.

The difference shows only behind a million steps. The source for it is made by a recursion (`longSource`), and
its steps are counted by induction, with the code of two sources that are joined (`compile_join`).
-/

namespace LispMachine

/-- Whether an error says that the steps of a run were spent. -/
def Error.isLimit : Error → Bool
  | runtime e => e.isLimit
  | _ => false

theorem Error.isLimit_iff (e : Error) : e.isLimit ↔ ∃ limit, e = .runtime (.stepLimitExceeded limit) := by
  constructor
  · intro h
    cases e with
    | runtime e =>
      cases e with
      | stepLimitExceeded limit => exact ⟨limit, rfl⟩
      | _ => cases h
    | _ => cases h
  · rintro ⟨limit, rfl⟩
    rfl

/-- An error about the data of a program does not say that its steps were spent. -/
theorem RuntimeError.not_isLimit {e : RuntimeError} (h : e.isOfData) : ¬ e.isLimit := by
  intro hlimit
  cases e with
  | stepLimitExceeded => cases h
  | _ => cases hlimit

/-- A source that does not compile has no steps. -/
theorem Fault.not_isLimit (fault : Fault) (source : String) : ¬ (fault.toError source).isLimit := by
  cases fault <;> exact Bool.false_ne_true

namespace Dialogue

/-- What `:step` says when its budget is spent. -/
def stoppedLine : String := "Stopped after " ++ defaultStepLimit.repr ++ " steps"

/-- What the result of an evaluation comes to as a last line. -/
def outcomeLine : Except Error (Option Value) → String
  | .ok (some v) => "=> " ++ v.text
  | .ok none => "=> (nothing)"
  | .error e => if e.isLimit then stoppedLine else errorLine e

/-! ## The last line

What the command says at its end is decided by the machine that the budget leaves, and by the events of the
steps before it. The three cases are those in which a run with a budget ends.
-/

/-- What is told last of a machine that is stepped with a budget. -/
inductive Tells (m : Machine) (budget : Nat) : String → Prop
  | halted {k : Nat} {m' : Machine} (hlt : k < budget) (hk : m.after k = some m') (hhalt : m'.isHalted) :
      Tells m budget (resultLine m')
  | failed {k : Nat} {m' : Machine} {e : RuntimeError} (hlt : k < budget) (hk : m.after k = some m')
      (herror : m'.next = .error e) : Tells m budget (errorLine (.runtime e))
  | stopped {m' : Machine} (hk : m.after budget = some m') : Tells m budget stoppedLine

/-- Stepping tells a last line in one of the three ways. -/
theorem stepFor_tells (source : String) (budget : Nat) (m : Machine) (told : List String) :
    ∃ line rest, stepFor source budget m told = line :: rest ∧ Tells m budget line := by
  induction budget generalizing m told with
  | zero => exact ⟨_, _, rfl, .stopped rfl⟩
  | succ budget ih =>
    rw [stepFor]
    split
    next move hmove =>
      have hstep : m.step = .ok (some (m.advance move)) := Machine.step_eq_some_iff.mpr ⟨move, hmove, rfl⟩
      obtain ⟨line, rest, hline, htells⟩ := ih (m.advance move)
        (stepLine source ((m.advance move).event move) :: told)
      refine ⟨line, rest, hline, ?_⟩
      cases htells with
      | halted hlt hk hhalt =>
        exact .halted (Nat.succ_lt_succ hlt) ((Machine.after_succ hstep _).trans hk) hhalt
      | failed hlt hk herror =>
        exact .failed (Nat.succ_lt_succ hlt) ((Machine.after_succ hstep _).trans hk) herror
      | stopped hk => exact .stopped ((Machine.after_succ hstep _).trans hk)
    next hnone => exact ⟨_, _, rfl, .halted (Nat.succ_pos _) rfl (Machine.isHalted_of_next hnone)⟩
    next e herror => exact ⟨_, _, rfl, .failed (Nat.succ_pos _) rfl herror⟩

namespace Tells
variable {m m' : Machine} {budget k : Nat} {line : String}

/-- A machine that can make all steps of the budget is stopped, even if it is halted then. -/
theorem of_after (h : Tells m budget line) (hbudget : m.after budget = some m') : line = stoppedLine := by
  cases h with
  | halted hlt hk hhalt =>
    have hle := Machine.le_of_stuck hk (Machine.stuck_of_isHalted hhalt) hbudget
    exact absurd hlt (Nat.not_lt_of_le hle)
  | failed hlt hk herror =>
    have hle := Machine.le_of_stuck hk (Machine.stuck_of_error herror) hbudget
    exact absurd hlt (Nat.not_lt_of_le hle)
  | stopped => rfl

theorem of_halted (h : Tells m budget line) (hlt : k < budget) (hk : m.after k = some m')
    (hhalt : m'.isHalted) : line = resultLine m' := by
  have hstuck := Machine.stuck_of_isHalted hhalt
  cases h with
  | halted _ hk' hhalt' =>
    obtain ⟨-, rfl⟩ := Machine.eq_of_stuck hk hstuck hk' (Machine.stuck_of_isHalted hhalt')
    rfl
  | failed _ hk' herror =>
    obtain ⟨-, rfl⟩ := Machine.eq_of_stuck hk hstuck hk' (Machine.stuck_of_error herror)
    rw [Machine.next_of_isHalted hhalt] at herror
    cases herror
  | stopped hbudget => exact absurd hlt (Nat.not_lt_of_le (Machine.le_of_stuck hk hstuck hbudget))

theorem of_error {e : RuntimeError} (h : Tells m budget line) (hlt : k < budget)
    (hk : m.after k = some m') (herror : m'.next = .error e) : line = errorLine (.runtime e) := by
  have hstuck := Machine.stuck_of_error herror
  cases h with
  | halted _ hk' hhalt =>
    obtain ⟨-, rfl⟩ := Machine.eq_of_stuck hk hstuck hk' (Machine.stuck_of_isHalted hhalt)
    rw [Machine.next_of_isHalted hhalt] at herror
    cases herror
  | failed _ hk' herror' =>
    obtain ⟨-, rfl⟩ := Machine.eq_of_stuck hk hstuck hk' (Machine.stuck_of_error herror')
    rw [herror] at herror'
    cases herror'
    rfl
  | stopped hbudget => exact absurd hlt (Nat.not_lt_of_le (Machine.le_of_stuck hk hstuck hbudget))

end Tells

/-- Machines whose results are shown the same are told the same. -/
theorem resultLine_eq {m : Machine} {r : Option Value}
    (h : m.top.map Value.shown = r.map Value.shown) : resultLine m = outcomeLine (.ok r) := by
  rw [resultLine]
  cases r with
  | none =>
    rw [Option.map_none, Option.map_eq_none_iff] at h
    rw [h, outcomeLine]
  | some v =>
    obtain ⟨v', hv', hshown⟩ := Option.map_eq_some_iff.mp h
    have htext : v'.text = v.text := congrArg Prod.fst hshown
    rw [hv', outcomeLine]
    simp only [htext]

end Dialogue

open Dialogue

theorem Except.eq_ok_of_map {ε α β : Type} {f : α → β} {x : Except ε α} {b : β} (h : x.map f = .ok b) :
    ∃ a, x = .ok a ∧ f a = b := by
  cases x with
  | error e => cases h
  | ok a => exact ⟨a, rfl, Except.ok.inj h⟩

theorem Except.eq_error_of_map {ε α β : Type} {f : α → β} {x : Except ε α} {e : ε}
    (h : x.map f = .error e) : x = .error e := by
  cases x with
  | error d => exact congrArg Except.error (Except.error.inj h)
  | ok a => cases h

/-- A machine over a copy of the global frame fails because of the data of its program. -/
theorem Session.Reachable.not_isLimit_of_load {s : Session} (hs : s.Reachable) {p : Program}
    (hscoped : p.Scoped .anywhere s.globals) {k : Nat} {m : Machine} (hk : (s.load p).after k = some m)
    {e : RuntimeError} (herror : m.next = .error e) : ¬ e.isLimit := by
  obtain ⟨h, hh⟩ := hs.kept.heap
  obtain ⟨hloaded, hload⟩ := hh.load hscoped
  rw [hload] at hk
  exact RuntimeError.not_isLimit (hloaded.isOfData_of_after hk herror)

/-- **The last line that `:step` tells is what an evaluation comes to**, unless the evaluation succeeds with
the last step that it may take. -/
theorem Session.last_stepLines {s : Session} (hs : s.Reachable) (hlimit : s.stepLimit = defaultStepLimit)
    (source : String) :
    (stepLines s source).getLast? = some
      (if (s.eval source).1.isOk ∧ s.stepsOf source = defaultStepLimit then stoppedLine
        else outcomeLine (s.eval source).1) := by
  cases hp : s.program source with
  | error fault =>
    have heval : (s.eval source).1 = .error (fault.toError source) := by rw [Session.eval_eq, hp]
    have hlines : stepLines s source = [errorLine (fault.toError source)] := by
      rw [stepLines, Session.machine_eq, hp]
    rw [hlines, heval, if_neg, outcomeLine, if_neg (fault.not_isLimit source)]
    · rfl
    · rintro ⟨hok, -⟩
      cases hok
  | ok p =>
    have hscoped := Session.scoped_of_program hp
    -- the copy that `:step` runs on has the same outcome as the run that an evaluation makes
    obtain ⟨live, hlive⟩ := hs.settled
    have hsame := hlive.load_sameOutcome hs.kept.aligned hscoped s.stepLimit
    have heval : (s.eval source).1 =
        ((Machine.start p.code s.env s.store).runWithLimit s.stepLimit).1.mapError Error.runtime := by
      rw [Session.eval_eq, hp]
      exact s.execute_fst p
    have hstepsOf : s.stepsOf source =
        ((Machine.start p.code s.env s.store).runWithLimit s.stepLimit).2.steps := by
      rw [Session.stepsOf, hp]
    obtain ⟨line, rest, hline, htells⟩ := stepFor_tells source defaultStepLimit (s.load p) []
    have hlines : (stepLines s source).getLast? = some line := by
      rw [stepLines, Session.machine_eq, hp]
      simp only [hline, List.getLast?_reverse, List.head?_cons]
    rw [hlines, hstepsOf, hsame.steps, heval]
    have hresult := hsame.result
    generalize ((Machine.start p.code s.env s.store).runWithLimit s.stepLimit).1 = result at hresult ⊢
    have hends := Machine.runFor_ends s.stepLimit s.stepLimit (s.load p)
    rw [← Machine.runWithLimit] at hends
    rw [← hlimit] at htells ⊢
    generalize (s.load p).runWithLimit s.stepLimit = out at hresult hends ⊢
    congr 1
    cases hends with
    -- a halt with the last step that may be taken is seen by an evaluation, and not by `:step`
    | @halted k m hle hk hhalt =>
      obtain ⟨r, rfl, hr⟩ := Except.eq_ok_of_map hresult
      have hsteps : m.steps = k := (Machine.steps_of_after hk).trans (Nat.zero_add k)
      rcases Nat.eq_or_lt_of_le hle with rfl | hlt
      · rw [if_pos ⟨rfl, hsteps⟩]
        exact htells.of_after hk
      · rw [if_neg fun h => Nat.ne_of_lt hlt (hsteps.symm.trans h.2)]
        exact (htells.of_halted hlt hk hhalt).trans (resultLine_eq hr.symm)
    | @failed k m e hlt hk herror =>
      obtain rfl := Except.eq_error_of_map hresult
      rw [if_neg fun h => Bool.false_ne_true h.1]
      refine (htells.of_error hlt hk herror).trans ?_
      exact (if_neg (hs.not_isLimit_of_load hscoped hk herror) : outcomeLine (.error (.runtime e)) = _).symm
    | spent hk hhalt =>
      obtain rfl := Except.eq_error_of_map hresult
      rw [if_neg fun h => Bool.false_ne_true h.1]
      exact htells.of_after hk

/-- An evaluation leaves the limit as it is. -/
theorem Session.stepLimit_eval (s : Session) (source : String) :
    (s.eval source).2.stepLimit = s.stepLimit := by
  rw [Session.eval]
  split
  next => rfl
  next => split <;> rfl

/-! ## Lines of a dialogue

A line is trimmed, and then its first word decides what it asks for. Where the rest of it is trimmed already,
the word and the rest are found again as they were put together.
-/

namespace Text
variable {cs word : List Char}

theorem dropWhile_eq_self {c : Char} (hc : cs.head? = some c) (hblank : ¬ isBlank c) :
    cs.dropWhile isBlank = cs := by
  cases cs with
  | nil => rfl
  | cons c' rest =>
    cases hc
    rw [List.dropWhile_cons, if_neg hblank]

theorem trim_eq_self {first last : Char} (hfirst : cs.head? = some first)
    (hlast : cs.getLast? = some last) (hfirst' : ¬ isBlank first) (hlast' : ¬ isBlank last) :
    trim cs = cs := by
  rw [← List.head?_reverse] at hlast
  rw [trim, dropWhile_eq_self hfirst hfirst', dropWhile_eq_self hlast hlast', List.reverse_reverse]

/-- Text that is trimmed ends in no blank. -/
theorem last_of_trim (h : trim cs = cs) {last : Char} (hlast : cs.getLast? = some last) :
    ¬ isBlank last := by
  rw [← h, trim, List.getLast?_reverse] at hlast
  have hhead := List.head?_dropWhile_not isBlank (cs.dropWhile isBlank).reverse
  rw [hlast] at hhead
  exact ne_true_of_eq_false hhead

/-- A word ends where a blank stands, or at the end of the text. -/
theorem splitWord_append {more : List Char} (hword : ∀ c ∈ word, !isBlank c)
    (hmore : ∀ c, more.head? = some c → isBlank c) : splitWord (word ++ more) = (word, trim more) := by
  rw [splitWord, List.takeWhile_append_of_pos hword, List.dropWhile_append_of_pos hword]
  cases more with
  | nil => rw [List.takeWhile_nil, List.append_nil, List.dropWhile_nil]
  | cons c rest =>
    have hc : ¬ (!isBlank c) := by simp [hmore c rfl]
    rw [List.takeWhile_cons, if_neg hc, List.append_nil, List.dropWhile_cons, if_neg hc]

/-- A word in front of text that is trimmed is split off again. -/
theorem splitWord_trim (word : List Char) (hne : word ≠ []) (hword : ∀ c ∈ word, !isBlank c)
    (hcs : trim cs = cs) : splitWord (trim (word ++ ' ' :: cs)) = (word, cs) := by
  have hblank : ∀ c ∈ word, ¬ isBlank c := fun c hc => by simpa using hword c hc
  obtain ⟨first, rest, hfirst⟩ := List.exists_cons_of_ne_nil hne
  obtain ⟨last, hlast⟩ := Option.isSome_iff_exists.mp (List.getLast?_isSome.mpr hne)
  have hhead : (word ++ ' ' :: cs).head? = some first := by rw [hfirst, List.cons_append, List.head?_cons]
  have hfirst' : ¬ isBlank first := hblank first (by rw [hfirst]; exact List.mem_cons_self)
  have hlast' : ¬ isBlank last := hblank last (List.mem_of_getLast? hlast)
  cases cs with
  | nil =>
    -- nothing stands behind the word, and the blank goes away
    have htrim : trim (word ++ [' ']) = word := by
      rw [← List.head?_reverse] at hlast
      rw [trim, dropWhile_eq_self hhead hfirst', List.reverse_append, List.reverse_singleton,
        List.singleton_append, List.dropWhile_cons, if_pos (by decide), dropWhile_eq_self hlast hlast',
        List.reverse_reverse]
    have hsplit : splitWord (word ++ []) = (word, trim []) :=
      splitWord_append hword (by simp)
    rw [List.append_nil] at hsplit
    rw [htrim, hsplit]
    rfl
  | cons c cs =>
    obtain ⟨end', hend⟩ := Option.isSome_iff_exists.mp (List.getLast?_isSome.mpr (List.cons_ne_nil c cs))
    have hend' : (word ++ ' ' :: c :: cs).getLast? = some end' := by
      rw [List.getLast?_append, List.getLast?_cons_cons, hend, Option.some_or]
    have hspace : isBlank ' ' := by decide
    -- the text ends as what stands behind the word does, and that ends in no blank
    rw [trim_eq_self hhead hend' hfirst' (last_of_trim hcs hend), splitWord_append hword, trim,
      List.dropWhile_cons, if_pos hspace, ← trim, hcs]
    rintro c ⟨⟩
    exact hspace

end Text

namespace Dialogue

theorem respond_step (s : Session) {source : String} (h : Text.trim source.toList = source.toList) :
    respond s (":step " ++ source) = ⟨stepLines s source, some s⟩ := by
  have hsplit := Text.splitWord_trim ":step".toList (by decide) (List.all_eq_true.mp (by decide)) h
  have hline : (":step " ++ source).toList = ":step".toList ++ ' ' :: source.toList := by
    rw [String.toList_append]
    rfl
  rw [respond, hline]
  generalize Text.trim (":step".toList ++ ' ' :: source.toList) = line at hsplit
  have hempty : line.isEmpty = false := by
    cases line with
    | nil => cases hsplit
    | cons => rfl
  simp [respondTrimmed, hsplit, hempty]

/-- A session of a dialogue: the first one, and what a line leaves of one. -/
inductive Reachable : Session → Prop
  | start : Reachable {}
  | line {s s' : Session} {line : String} (h : Reachable s) (hreply : (respond s line).session = some s') :
      Reachable s'

theorem session_of_evaluate (s : Session) (source : String) :
    (evaluate s source).session = some (s.answer (.eval source)) := by
  rw [Session.answer]
  fun_cases evaluate s source with
  | case1 v s' heval | case2 s' heval | case3 e s' heval => rw [heval]

/-- What a line leaves of a session: the session as it was, or what an evaluation leaves. -/
theorem session_of_respond {s s' : Session} {line : String} (h : (respond s line).session = some s') :
    s' = s ∨ ∃ source, s' = s.answer (.eval source) := by
  rw [respond] at h
  generalize Text.trim line.toList = cs at h
  revert h
  fun_cases respondTrimmed s cs with
  | case6 => nofun
  | case8 =>
    -- a line that is no command is a source
    intro h
    rw [session_of_evaluate] at h
    exact .inr ⟨_, (Option.some.inj h).symm⟩
  | _ => exact fun h => .inl (Option.some.inj h).symm

theorem Reachable.session {s : Session} (h : Reachable s) :
    s.Reachable ∧ s.stepLimit = defaultStepLimit := by
  induction h with
  | start => exact ⟨⟨{}, [], rfl⟩, rfl⟩
  | line _ hreply ih =>
    obtain rfl | ⟨source, rfl⟩ := session_of_respond hreply
    · exact ih
    · exact ⟨ih.1.answer _, (Session.stepLimit_eval _ source).trans ih.2⟩

/-! ## What the last line says -/

/-- How a line begins, which tells the three kinds of last lines apart. -/
def firstChar? (line : String) : Option Char := line.toList.head?

theorem firstChar?_result (t : String) : firstChar? ("=> " ++ t) = some '=' := by
  rw [firstChar?, String.toList_append]
  rfl

theorem firstChar?_error (t : String) : firstChar? ("Error: " ++ t) = some 'E' := by
  rw [firstChar?, String.toList_append]
  rfl

theorem stoppedLine_eq : stoppedLine = "Stopped after 1000000 steps" := by decide +kernel

theorem firstChar?_stopped : firstChar? stoppedLine = some 'S' := by
  rw [stoppedLine_eq]
  rfl

/-- Lines that begin differently are different. -/
theorem ne_of_firstChar? {a b : Char} {line line' : String} (h : firstChar? line = some a)
    (h' : firstChar? line' = some b) (hab : a ≠ b) : line ≠ line' := by
  rintro rfl
  exact hab (Option.some.inj (h.symm.trans h'))

section
variable (x : Except Error (Option Value)) (t : String)

theorem outcomeLine_eq_result_iff : outcomeLine x = "=> " ++ t ↔
    (∃ v, x = .ok (some v) ∧ v.text = t) ∨ x = .ok none ∧ t = "(nothing)" := by
  cases x with
  | error e =>
    constructor
    · intro h
      rw [outcomeLine] at h
      split at h
      next => exact absurd h (ne_of_firstChar? firstChar?_stopped (firstChar?_result t) (by decide))
      next => exact absurd h (ne_of_firstChar? (firstChar?_error _) (firstChar?_result t) (by decide))
    · rintro (⟨v, hv, -⟩ | ⟨hv, -⟩) <;> cases hv
  | ok r =>
    cases r with
    | none =>
      -- the remark that there is no value is the text of a value as well
      have hnothing : outcomeLine (.ok none) = "=> " ++ "(nothing)" := by decide +kernel
      rw [hnothing, String.append_right_inj]
      constructor
      · exact fun h => .inr ⟨rfl, h.symm⟩
      · rintro (⟨v, hv, -⟩ | ⟨-, rfl⟩)
        · cases hv
        · rfl
    | some v =>
      rw [outcomeLine, String.append_right_inj]
      constructor
      · exact fun h => .inl ⟨v, rfl, h⟩
      · rintro (⟨v', hv, ht⟩ | ⟨hv, -⟩)
        · cases hv
          exact ht
        · cases hv

theorem firstChar?_outcomeLine_ok (r : Option Value) : firstChar? (outcomeLine (.ok r)) = some '=' := by
  cases r with
  | none => rfl
  | some v => exact firstChar?_result v.text

theorem outcomeLine_eq_stopped_iff : outcomeLine x = stoppedLine ↔
    ∃ limit, x = .error (.runtime (.stepLimitExceeded limit)) := by
  cases x with
  | error e =>
    rw [outcomeLine]
    by_cases hlimit : e.isLimit
    · rw [if_pos hlimit]
      obtain ⟨limit, rfl⟩ := e.isLimit_iff.mp hlimit
      exact ⟨fun _ => ⟨limit, rfl⟩, fun _ => rfl⟩
    · rw [if_neg hlimit]
      constructor
      · exact fun h => absurd h (ne_of_firstChar? (firstChar?_error _) firstChar?_stopped (by decide))
      · rintro ⟨limit, hx⟩
        cases hx
        exact absurd rfl hlimit
  | ok r =>
    constructor
    · exact fun h =>
        absurd h (ne_of_firstChar? (firstChar?_outcomeLine_ok r) firstChar?_stopped (by decide))
    · rintro ⟨limit, hx⟩
      cases hx

theorem outcomeLine_eq_error_iff : outcomeLine x = "Error: " ++ t ↔
    ∃ e, x = .error e ∧ (∀ limit, e ≠ .runtime (.stepLimitExceeded limit)) ∧ e.message = t := by
  cases x with
  | error e =>
    rw [outcomeLine]
    by_cases hlimit : e.isLimit
    · rw [if_pos hlimit]
      constructor
      · exact fun h => absurd h (ne_of_firstChar? firstChar?_stopped (firstChar?_error t) (by decide))
      · rintro ⟨e', hx, hne, -⟩
        cases hx
        obtain ⟨limit, hlimit⟩ := e.isLimit_iff.mp hlimit
        exact absurd hlimit (hne limit)
    · rw [if_neg hlimit, errorLine, String.append_right_inj]
      constructor
      · refine fun h => ⟨e, rfl, fun limit hlimit' => ?_, h⟩
        exact hlimit (e.isLimit_iff.mpr ⟨limit, hlimit'⟩)
      · rintro ⟨e', hx, -, ht⟩
        cases hx
        exact ht
  | ok r =>
    constructor
    · exact fun h =>
        absurd h (ne_of_firstChar? (firstChar?_outcomeLine_ok r) (firstChar?_error t) (by decide))
    · rintro ⟨e, hx, -⟩
      cases hx

end

/-- The last line that `:step` prints in a dialogue. -/
theorem last_of_step {s : Session} (hs : Reachable s) {source : String}
    (htrim : Text.trim source.toList = source.toList) :
    (respond s (":step " ++ source)).output.getLast? = some
      (if (s.eval source).1.isOk ∧ s.stepsOf source = defaultStepLimit then stoppedLine
        else outcomeLine (s.eval source).1) := by
  obtain ⟨hreachable, hlimit⟩ := hs.session
  rw [respond_step s htrim]
  exact Session.last_stepLines hreachable hlimit source

end Dialogue

/-- **`:step` reports the outcome of evaluating the line.** For every session of a dialogue and every source
that is trimmed, the last line that is printed tells a value by its text, that there is none, that the steps
were spent, or an error by its text, exactly when evaluating the source would come to that. Evaluations that
succeed with the last step that they may take are left out. -/
theorem step_reports_the_outcome_of_eval (s : Session) (hs : Dialogue.Reachable s) (source : String)
    (htrim : Text.trim source.toList = source.toList)
    (hsteps : ¬ ((s.eval source).1.isOk ∧ s.stepsOf source = defaultStepLimit)) :
    ∃ last, (respond s (":step " ++ source)).output.getLast? = some last ∧
      (∀ t, last = "=> " ++ t ↔
        (∃ v, (s.eval source).1 = .ok (some v) ∧ v.text = t) ∨
          (s.eval source).1 = .ok none ∧ t = "(nothing)") ∧
      (last = "Stopped after 1000000 steps" ↔
        ∃ limit, (s.eval source).1 = .error (.runtime (.stepLimitExceeded limit))) ∧
      ∀ t, last = "Error: " ++ t ↔
        ∃ e, (s.eval source).1 = .error e ∧ (∀ limit, e ≠ .runtime (.stepLimitExceeded limit)) ∧
          e.message = t := by
  have hlast := last_of_step hs htrim
  rw [if_neg hsteps] at hlast
  refine ⟨_, hlast, outcomeLine_eq_result_iff _, ?_, outcomeLine_eq_error_iff _⟩
  rw [← stoppedLine_eq]
  exact outcomeLine_eq_stopped_iff _

/-- A source that uses a definition of an earlier line. -/
theorem step_reports_a_sum :
    ∃ s, Dialogue.Reachable s ∧ (respond {} "(define x 5)").session = some s ∧
      (respond s (":step " ++ "(+ x 1)")).output.getLast? = some "=> 6" := by
  have hcheck : (respond {} "(define x 5)").session.any (fun s =>
      s.stepsOf "(+ x 1)" != defaultStepLimit &&
        (s.eval "(+ x 1)").1.toOption.any (·.map Value.text == some "6")) = true := by decide +kernel
  cases hreply : (respond {} "(define x 5)").session with
  | none =>
    rw [hreply] at hcheck
    cases hcheck
  | some s =>
    rw [hreply, Option.any_some, Bool.and_eq_true, bne_iff_ne] at hcheck
    obtain ⟨hsteps, hvalue⟩ := hcheck
    have hs : Dialogue.Reachable s := .line .start hreply
    obtain ⟨last, hlast, hresult, -, -⟩ := step_reports_the_outcome_of_eval s hs "(+ x 1)" (by decide)
      fun h => hsteps h.2
    obtain ⟨r, heval, htext⟩ := Except.exists_of_any hvalue
    obtain ⟨v, rfl, hv⟩ := Option.map_eq_some_iff.mp (eq_of_beq htext)
    have hsix : last = "=> " ++ "6" := (hresult "6").mpr (.inl ⟨v, heval, hv⟩)
    exact ⟨s, hs, rfl, hlast.trans (congrArg some hsix)⟩

/-! ## A source of any length -/

/-- A call of a primitive, and so many numbers, each on a line. -/
def longSource : Nat → String
  | 0 => "(consp 1)"
  | n + 1 => longSource n ++ "\n" ++ "1"

/-- The code of such a source, without origins. -/
def longCode : Nat → Code
  | 0 => [.op .ldc none, .number 1, .op .consp none]
  | n + 1 => longCode n ++ [.op .pop none] ++ [.op .ldc none, .number 1]

theorem trim_longSource (n : Nat) : Text.trim (longSource n).toList = (longSource n).toList := by
  have hhead : (longSource n).toList.head? = some '(' := by
    induction n with
    | zero => rfl
    | succ n ih =>
      rw [longSource, String.toList_append, String.toList_append, List.append_assoc, List.head?_append, ih,
        Option.some_or]
  cases n with
  | zero => decide
  | succ n =>
    have hlast : (longSource (n + 1)).toList.getLast? = some '1' := by
      rw [longSource, String.toList_append, List.getLast?_append]
      rfl
    exact Text.trim_eq_self hhead hlast (by decide) (by decide)

/-- A source that defines no names has a last form that is no definition. -/
theorem defined?_of_compile {d : Dialect} {source : String} {p : Program} {c : Compiled} {last : TopForm}
    (hc : compile d [] source = .ok c) (hglobals : c.globals = [])
    (hp : Program.ofRun [] (.ofText d source) = .ok p) (hlast : p.getLast? = some last) :
    last.defined? = none := by
  obtain ⟨p', hp', rfl⟩ := compile_eq_ok_iff.mp hc
  obtain rfl : p = p' := Except.ok.inj (hp.symm.trans hp')
  rw [List.nil_append] at hglobals
  exact List.filterMap_eq_nil_iff.mp hglobals last (List.mem_of_getLast? hlast)

/-- What a source without definitions is compiled to, but for origins. -/
theorem exists_of_sameItems {source : String} {code : Code}
    (h : (compile {} [] source).toOption.any fun c =>
      c.globals.isEmpty && Value.sameItems c.code code) :
    ∃ c, compile {} [] source = .ok c ∧ c.globals = [] ∧
      c.code.map Value.erase = code.map Value.erase := by
  obtain ⟨c, hc, hcheck⟩ := Except.exists_of_any h
  obtain ⟨hglobals, hsame⟩ := Bool.and_eq_true_iff.mp hcheck
  rw [Value.sameItems_iff, Value.eraseAll_eq_map, Value.eraseAll_eq_map] at hsame
  exact ⟨c, hc, List.isEmpty_iff.mp hglobals, hsame⟩

theorem compile_longSource (n : Nat) :
    ∃ c, compile {} [] (longSource n) = .ok c ∧ c.globals = [] ∧ c.code.map Value.erase = longCode n := by
  induction n with
  | zero =>
    have hcheck : (compile {} [] "(consp 1)").toOption.any fun c =>
        c.globals.isEmpty && Value.sameItems c.code (longCode 0) := by decide +kernel
    exact exists_of_sameItems hcheck
  | succ n ih =>
    obtain ⟨c, hc, hglobals, hcode⟩ := ih
    have hcheck : (compile {} [] "1").toOption.any fun c =>
        c.globals.isEmpty && Value.sameItems c.code [.op .ldc none, .number 1] := by decide +kernel
    obtain ⟨one, hone, hglobals₁, hcode₁⟩ := exists_of_sameItems hcheck
    -- one line more is one source more behind a line break, and a `POP` between the two
    obtain ⟨c', p, last, hc', hp, hlast, hcode', hglobals'⟩ := compile_join hc (hglobals ▸ hone)
    rw [defined?_of_compile hc hglobals hp hlast, if_pos rfl, hcode, hcode₁] at hcode'
    exact ⟨c', hc', hglobals'.trans hglobals₁, hcode'⟩

theorem after_longCode (n : Nat) (E : Environment) (C : Code) (store : Store) (steps : Nat) :
    ∃ v, Machine.after (2 * n + 2) ⟨⟨[], E, longCode n ++ C, []⟩, store, steps⟩ =
      some ⟨⟨[v], E, C, []⟩, store, steps + (2 * n + 2)⟩ := by
  induction n generalizing C with
  | zero => exact ⟨_, rfl⟩
  | succ n ih =>
    obtain ⟨v, hv⟩ := ih (.op .pop none :: .op .ldc none :: .number 1 :: C)
    have hcode : longCode (n + 1) ++ C =
        longCode n ++ .op .pop none :: .op .ldc none :: .number 1 :: C := by
      rw [longCode, List.append_assoc, List.append_assoc]
      rfl
    -- the `POP` and the `LDC` of the last line are the two steps more
    have hcount : 2 * (n + 1) + 2 = 2 * n + 2 + 2 := by omega
    refine ⟨.number 1, ?_⟩
    rw [hcode, hcount, Machine.after_add hv]
    rfl

/-- Such a source takes two steps for each of its lines. -/
theorem eval_longSource {n : Nat} (hn : 2 * n + 2 ≤ defaultStepLimit) :
    (({} : Session).eval (longSource n)).1.isOk ∧ ({} : Session).stepsOf (longSource n) = 2 * n + 2 := by
  obtain ⟨c, hc, -, hcode⟩ := compile_longSource n
  obtain ⟨p, hp, hpcode, -⟩ := Session.compile_eq_ok (s := {}) hc
  rw [hpcode] at hcode
  obtain ⟨v, hv⟩ := after_longCode n [0] [] (Store.empty.alloc []).erase 0
  have hstart : (Machine.start p.code [0] (Store.empty.alloc [])).erase =
      ⟨⟨[], [0], longCode n, []⟩, (Store.empty.alloc []).erase, 0⟩ := by
    simp only [Machine.start, Machine.erase, Registers.erase, hcode, List.map_nil]
  rw [List.append_nil, ← hstart, Machine.after_erase] at hv
  obtain ⟨m, hm, herase⟩ := Option.map_eq_some_iff.mp hv
  have hhalt : m.isHalted := by
    have hcode : m.code.map Value.erase = [] := congrArg (fun m => m.registers.code) herase
    exact List.isEmpty_iff.mpr (List.map_eq_nil_iff.mp hcode)
  have hrun : (Machine.start p.code ({} : Session).env ({} : Session).store).runWithLimit defaultStepLimit =
      (.ok m.top, m) := Machine.runFor_of_after_isHalted defaultStepLimit hm hhalt hn
  constructor
  · have heval : (({} : Session).eval (longSource n)).1 = .ok m.top := by
      rw [Session.eval_eq, hp]
      refine (Session.execute_fst _ p).trans ?_
      rw [hrun]
      rfl
    rw [heval]
    rfl
  · rw [Session.stepsOf, hp]
    refine (congrArg (fun out => out.2.steps) hrun).trans ?_
    exact (Machine.steps_of_after hm).trans (Nat.zero_add _)

/-- What is told last does not tell every outcome apart, and is not always the outcome: a value that is
shown as the remark that there is none, and a program that halts with the last step that it may take. -/
theorem step_misreports_some_outcomes :
    (∃ v, (({} : Session).eval "'(nothing)").1 = .ok (some v) ∧
      (respond {} (":step " ++ "'(nothing)")).output.getLast? = some "=> (nothing)") ∧
    Text.trim (longSource 499999).toList = (longSource 499999).toList ∧
    (({} : Session).eval (longSource 499999)).1.isOk ∧
    (respond {} (":step " ++ longSource 499999)).output.getLast? =
      some "Stopped after 1000000 steps" := by
  refine ⟨?_, trim_longSource _, ?_⟩
  · have hvalue : (({} : Session).eval "'(nothing)").1.toOption.any Option.isSome := by decide +kernel
    obtain ⟨r, heval, hsome⟩ := Except.exists_of_any hvalue
    obtain ⟨v, rfl⟩ := Option.isSome_iff_exists.mp hsome
    exact ⟨v, heval, by decide +kernel⟩
  · obtain ⟨hok, hsteps⟩ := eval_longSource (n := 499999) (Nat.le_refl _)
    have hlast := last_of_step .start (trim_longSource 499999)
    rw [if_pos ⟨hok, hsteps⟩, stoppedLine_eq] at hlast
    exact ⟨hok, hlast⟩

end LispMachine
