import LispMachine.Error
import LispMachine.Text.Bytes

/-!
# The excerpt that an error shows

The context of an error is found by counting: characters up to a byte offset, twenty back from there and a
hundred on, and the line breaks are rewritten when all is counted. What comes out is said without counting.
The source is cut into four parts (`Context.Excerpt`): the offset falls between the second and the third,
these two are shown, and what is left out at either end is marked. What is shown stands on one line
(`Context.Unbroken`).

An offset need not be the start of a character. It falls in front of the first character that does not start
before it, and behind the last character of the source if there is none.
-/

namespace LispMachine

open Text (byteWidth)

namespace Context

/-- What a text becomes on one line: a line feed is written as a backslash and an `n`, and a carriage return
is left out. -/
inductive Unbroken : List Char → List Char → Prop
  | nil : Unbroken [] []
  | feed {cs out : List Char} (h : Unbroken cs out) : Unbroken ('\n' :: cs) ('\\' :: 'n' :: out)
  | carriage {cs out : List Char} (h : Unbroken cs out) : Unbroken ('\r' :: cs) out
  | other {c : Char} {cs out : List Char} (hfeed : c ≠ '\n') (hcarriage : c ≠ '\r') (h : Unbroken cs out) :
    Unbroken (c :: cs) (c :: out)

/-- A source cut around an offset: what is left out in front, what is shown in front of the offset and behind
it, and what is left out at the end. -/
structure Excerpt (source : List Char) (offset : Nat) (before ahead behind after : List Char) : Prop where
  whole : source = before ++ (ahead ++ behind) ++ after
  /-- Every character in front of the offset starts before it. -/
  starts_before : ∀ p c q, before ++ ahead = p ++ c :: q → byteWidth p < offset
  /-- No other character does. -/
  starts_behind : ∀ p c q, behind ++ after = p ++ c :: q → offset ≤ byteWidth (before ++ ahead ++ p)
  /-- The first character behind the offset is shown, if there is one. -/
  shows_place : behind ++ after ≠ [] → behind ≠ []
  /-- A hundred characters are shown, or fewer up to the end of the source. -/
  shows_hundred : (ahead ++ behind).length = 100 ∨ (ahead ++ behind).length < 100 ∧ after = []
  ahead_le : ahead.length ≤ 20
  /-- Nothing is left out in front of an offset behind no more than twenty characters. -/
  from_front : (before ++ ahead).length < 21 → before = []
  /-- Twenty characters are shown in front of the offset if any are left out there. -/
  ahead_eq : before ≠ [] → ahead.length = 20

variable {cs out : List Char}

/-! ## One line -/

theorem unbroken_onOneLine (cs : List Char) : Unbroken cs (onOneLine cs) := by
  induction cs with
  | nil => exact .nil
  | cons c cs ih =>
    rw [onOneLine, List.flatMap_cons]
    by_cases hfeed : c = '\n'
    · subst hfeed
      exact .feed ih
    · by_cases hcarriage : c = '\r'
      · subst hcarriage
        exact .carriage ih
      · rw [if_neg hfeed, if_neg hcarriage]
        exact .other hfeed hcarriage ih

/-- What stands on one line holds no line break. -/
theorem Unbroken.not_mem (h : Unbroken cs out) : '\n' ∉ out ∧ '\r' ∉ out := by
  induction h with
  | nil => simp
  | feed _ ih => simpa using ih
  | carriage _ ih => exact ih
  | other hfeed hcarriage _ ih =>
    simp only [List.mem_cons, not_or]
    exact ⟨⟨Ne.symm hfeed, ih.1⟩, Ne.symm hcarriage, ih.2⟩

/-! ## The place of an offset -/

theorem charsBefore_le (offset start : Nat) (cs : List Char) : charsBefore offset start cs ≤ cs.length := by
  fun_induction charsBefore offset start cs with
  | case1 => exact Nat.le_refl 0
  | case2 start c rest hlt ih => exact Nat.succ_le_succ ih
  | case3 => exact Nat.zero_le _

/-- The characters that are counted start before the offset. -/
theorem start_lt_of_take (offset start : Nat) (cs : List Char) {p q : List Char} {c : Char}
    (h : cs.take (charsBefore offset start cs) = p ++ c :: q) : start + byteWidth p < offset := by
  fun_induction charsBefore offset start cs generalizing p with
  | case1 => simp at h
  | case2 start d rest hlt ih =>
    rw [List.take_succ_cons] at h
    cases p with
    | nil => exact hlt
    | cons d' p =>
      obtain ⟨rfl, htail⟩ := List.cons.inj h
      have hlt := ih htail
      rw [byteWidth]
      omega
  | case3 => simp at h

/-- The characters behind those that are counted start at the offset or behind it. -/
theorem le_start_of_drop (offset start : Nat) (cs : List Char) {p q : List Char} {c : Char}
    (h : cs.drop (charsBefore offset start cs) = p ++ c :: q) :
    offset ≤ start + byteWidth (cs.take (charsBefore offset start cs) ++ p) := by
  fun_induction charsBefore offset start cs with
  | case1 => simp at h
  | case2 start d rest hlt ih =>
    rw [List.drop_succ_cons] at h
    have hle := ih h
    rw [List.take_succ_cons, List.cons_append, byteWidth]
    omega
  | case3 start d rest hge => omega

/-- An offset falls between the characters that start before it and the others. -/
theorem exists_place (source : List Char) (offset : Nat) :
    ∃ front back, source = front ++ back ∧ charsBefore offset 0 source = front.length ∧
      (∀ p c q, front = p ++ c :: q → byteWidth p < offset) ∧
      ∀ p c q, back = p ++ c :: q → offset ≤ byteWidth (front ++ p) := by
  let count := charsBefore offset 0 source
  refine ⟨source.take count, source.drop count, (List.take_append_drop ..).symm, ?_, ?_, ?_⟩
  · exact (List.length_take_of_le (charsBefore_le offset 0 source)).symm
  · intro p c q h
    simpa only [Nat.zero_add] using start_lt_of_take offset 0 source h
  · intro p c q h
    simpa only [Nat.zero_add] using le_start_of_drop offset 0 source h

/-! ## The cut -/

variable {source before ahead behind after : List Char} {offset : Nat}

/-- What is shown around an offset is an excerpt. -/
theorem exists_excerpt (source : List Char) (offset : Nat) :
    ∃ before ahead behind after, Excerpt source offset before ahead behind after ∧
      start source offset = before.length ∧ piece source offset = ahead ++ behind := by
  obtain ⟨front, back, rfl, hplace, hbefore, hbehind⟩ := exists_place source offset
  -- in front of the offset, all but twenty characters are left out
  obtain ⟨before, ahead, rfl, hlead⟩ : ∃ before ahead, front = before ++ ahead ∧
      before.length = front.length - 20 :=
    ⟨_, _, (List.take_append_drop (front.length - 20) front).symm,
      List.length_take_of_le (Nat.sub_le front.length 20)⟩
  -- behind it, as many are shown as make a hundred with those in front
  obtain ⟨behind, after, rfl, hbehindLength⟩ : ∃ behind after, back = behind ++ after ∧
      behind.length = min (100 - ahead.length) back.length :=
    ⟨_, _, (List.take_append_drop (100 - ahead.length) back).symm, List.length_take⟩
  rw [List.length_append] at hlead hbehindLength
  have hahead : ahead.length ≤ 20 := by omega
  have hhundred : (ahead ++ behind).length = 100 ∨ (ahead ++ behind).length < 100 ∧ after = [] := by
    rw [List.length_append, ← List.length_eq_zero_iff]
    omega
  have hstart : start (before ++ ahead ++ (behind ++ after)) offset = before.length := by
    rw [start, hplace, lead, List.length_append]
    exact hlead.symm
  refine ⟨before, ahead, behind, after, ?_, hstart, ?_⟩
  · constructor
    case whole => simp only [List.append_assoc]
    case starts_before => exact hbefore
    case starts_behind => exact hbehind
    case shows_place =>
      rintro hne rfl
      rw [List.length_nil] at hbehindLength
      exact hne (List.eq_nil_of_length_eq_zero (by rw [List.nil_append]; omega))
    case shows_hundred => exact hhundred
    case ahead_le => exact hahead
    case from_front =>
      intro hshort
      rw [List.length_append] at hshort
      exact List.eq_nil_of_length_eq_zero (by omega)
    case ahead_eq =>
      intro hne
      have hpos := List.length_pos_iff.mpr hne
      omega
  · rw [piece, hstart, width, List.append_assoc, List.drop_left, ← List.append_assoc]
    rcases hhundred with hlength | ⟨hlength, rfl⟩
    · rw [← hlength, List.take_left]
    · rw [List.append_nil, List.take_of_length_le (Nat.le_of_lt hlength)]

/-- The line of an error is the excerpt on one line, with a mark where something is left out. -/
theorem Excerpt.line_eq (h : Excerpt source offset before ahead behind after)
    (hstart : start source offset = before.length) (hpiece : piece source offset = ahead ++ behind) :
    line source offset = (if before = [] then [] else omission) ++ onOneLine (ahead ++ behind) ++
      (if after = [] then [] else omission) := by
  have hlength : source.length = before.length + (ahead ++ behind).length + after.length := by
    rw [h.whole, List.length_append, List.length_append]
  have hfront : 0 < before.length ↔ ¬ before = [] := List.length_pos_iff
  have hend : before.length + (ahead ++ behind).length < source.length ↔ ¬ after = [] := by
    rw [hlength, Nat.lt_add_right_iff_pos, List.length_pos_iff]
  simp only [line, hstart, hpiece, hfront, hend, ite_not]

/-- No mark is a line break. -/
theorem not_mem_mark (cs : List Char) :
    '\n' ∉ (if cs = [] then [] else omission) ∧ '\r' ∉ (if cs = [] then [] else omission) := by
  split <;> decide

end Context

/-- **The context of an error is an excerpt of the source on one line.** For any source and any offset, inside
of a character or behind the end too, an error gets the text of an excerpt around the offset as its context and
stays the same otherwise. Dots in brackets stand in front of the excerpt exactly if something is left out there,
and behind it likewise. No line break is in the context. -/
theorem context_is_an_excerpt (e : SyntaxError) (source : String) (offset : Nat) :
    ∃ before ahead behind after shown context,
      Context.Excerpt source.toList offset before ahead behind after ∧
      Context.Unbroken (ahead ++ behind) shown ∧
      context.toList = (if before = [] then [] else "[...]".toList) ++ shown ++
        (if after = [] then [] else "[...]".toList) ∧
      e.withContext source offset = { e with context := some context } ∧
      '\n' ∉ context.toList ∧ '\r' ∉ context.toList := by
  obtain ⟨before, ahead, behind, after, hexcerpt, hstart, hpiece⟩ := Context.exists_excerpt source.toList offset
  have hshown := Context.unbroken_onOneLine (ahead ++ behind)
  have hcontext : (String.ofList (Context.line source.toList offset)).toList =
      (if before = [] then [] else Context.omission) ++ Context.onOneLine (ahead ++ behind) ++
        (if after = [] then [] else Context.omission) := by
    rw [String.toList_ofList, hexcerpt.line_eq hstart hpiece]
  refine ⟨before, ahead, behind, after, _, _, hexcerpt, hshown, hcontext, rfl, ?_⟩
  rw [hcontext]
  simp only [List.mem_append, not_or]
  exact ⟨⟨⟨(Context.not_mem_mark before).1, hshown.not_mem.1⟩, (Context.not_mem_mark after).1⟩,
    ⟨(Context.not_mem_mark before).2, hshown.not_mem.2⟩, (Context.not_mem_mark after).2⟩

end LispMachine
