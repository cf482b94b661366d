/-!
# Text by bytes

Offsets into a text count bytes, and a text is cut only between two characters. `splitAt?` cuts a text
behind a number of bytes, and `slice?` takes the piece between two offsets; both give nothing when an
offset is inside a character or behind the end of the text.

The law of cutting is `splitAt?_eq_some_iff`: the first part has the width asked for, and the two
parts are the whole text.
-/

namespace LispMachine.Text

/-- How many bytes a piece of text takes. -/
def byteWidth : List Char → Nat
  | [] => 0
  | c :: cs => c.utf8Size + byteWidth cs

/-- Cuts a text behind so many bytes, if a character ends there. -/
def splitAt? : Nat → List Char → Option (List Char × List Char)
  | 0, cs => some ([], cs)
  | _ + 1, [] => none
  | width + 1, c :: cs =>
    if c.utf8Size ≤ width + 1 then
      (splitAt? (width + 1 - c.utf8Size) cs).map fun (piece, rest) => (c :: piece, rest)
    else none

/-- The piece of a text from one offset up to another, if both are between characters of it. -/
def slice? (start stop : Nat) (cs : List Char) : Option (List Char) :=
  if start ≤ stop then
    (splitAt? start cs).bind fun (_, rest) => (splitAt? (stop - start) rest).map (·.1)
  else none

@[simp] theorem byteWidth_append (xs ys : List Char) :
    byteWidth (xs ++ ys) = byteWidth xs + byteWidth ys := by
  induction xs with
  | nil => simp [byteWidth]
  | cons x xs ih =>
    rw [List.cons_append, byteWidth, byteWidth, ih]
    omega

/-- What is cut off has the width asked for, and nothing is lost. -/
theorem byteWidth_of_splitAt? {width : Nat} {cs piece rest : List Char}
    (h : splitAt? width cs = some (piece, rest)) : byteWidth piece = width ∧ piece ++ rest = cs := by
  fun_induction splitAt? width cs generalizing piece rest with
  | case1 cs =>
    obtain ⟨rfl, rfl⟩ := Prod.mk.inj (Option.some.inj h)
    exact ⟨rfl, rfl⟩
  | case2 => cases h
  | case3 width c cs hc ih =>
    obtain ⟨⟨p, r⟩, hp, he⟩ := Option.map_eq_some_iff.mp h
    obtain ⟨rfl, rfl⟩ := Prod.mk.inj he
    obtain ⟨hw, happ⟩ := ih hp
    refine ⟨?_, congrArg (c :: ·) happ⟩
    rw [byteWidth, hw]
    omega
  | case4 => cases h

/-- A text can be cut behind each of its beginnings. -/
theorem splitAt?_byteWidth (piece rest : List Char) :
    splitAt? (byteWidth piece) (piece ++ rest) = some (piece, rest) := by
  induction piece with
  | nil => rw [byteWidth, splitAt?, List.nil_append]
  | cons c cs ih =>
    have hpos := Char.utf8Size_pos c
    obtain ⟨width, hw⟩ : ∃ width, byteWidth (c :: cs) = width + 1 :=
      ⟨byteWidth (c :: cs) - 1, by rw [byteWidth]; omega⟩
    have hrest : width + 1 - c.utf8Size = byteWidth cs := by rw [byteWidth] at hw; omega
    have hle : c.utf8Size ≤ width + 1 := by rw [byteWidth] at hw; omega
    rw [hw, List.cons_append, splitAt?, if_pos hle, hrest, ih]
    rfl

/-- A text is cut behind a width into the two parts of which the first has that width. -/
theorem splitAt?_eq_some_iff {width : Nat} {cs piece rest : List Char} :
    splitAt? width cs = some (piece, rest) ↔ byteWidth piece = width ∧ piece ++ rest = cs := by
  refine ⟨byteWidth_of_splitAt?, fun ⟨hw, happ⟩ => ?_⟩
  rw [← hw, ← happ]
  exact splitAt?_byteWidth piece rest

end LispMachine.Text
