import LispMachine.Proofs.Acceptance
import LispMachine.Proofs.Rendering

/-!
# The text of data

Data are shown as they are written: numbers, words and strings as their tokens are spelled, and a list in
parentheses with a blank between two items. Blanks and parentheses continue nothing that stands in front
of them, so the text of data that can be written is cut into the tokens of a datum for them, of as many
levels (`Value.Readable.exists_datum`).
-/

namespace LispMachine

open Text (byteWidth)

/-! ## Data that can be written -/

/-- A text that is read as one word, and is how the word is spelled. -/
def SpellsWord (name : String) : Prop :=
  ∃ w : Word, w.name = name ∧ ∃ span stop, tokenize {} name = .ok [⟨w.kind, span⟩, .ending stop]

mutual
/-- Data that can be written down: numbers that are not negative, strings without a double quote, words,
and lists of such data. -/
def Value.Readable : Value → Prop
  | .number n => 0 ≤ n.toInt
  | .string text => '\x22' ∉ text.toList
  | .symbol name => SpellsWord name
  | .list items => AllReadable items
  | .op _ _ | .closure _ _ => False
/-- Values that can all be written down. -/
def AllReadable : List Value → Prop
  | [] => True
  | v :: vs => v.Readable ∧ AllReadable vs
end

mutual
/-- How many levels deep data are: an atom and an empty list are one level, and any other list is one level
more than the deepest of its items. -/
def Value.levels : Value → Nat
  | .list items => deepestLevels items + 1
  | _ => 1
/-- How many levels deep the deepest of some data is. -/
def deepestLevels : List Value → Nat
  | [] => 0
  | v :: vs => max v.levels (deepestLevels vs)
end

/-! ## Words -/

section
variable {d : Dialect} {kind : TokenKind} {kinds more : List TokenKind} {text text' piece rest : List Char}

/-- A name without an exclamation mark in front is a word in all dialects. -/
theorem IsWord.of_plain {word : List Char} (h : IsWord {} word) : IsWord d word := by
  cases h with
  | plain hc hcs => exact .plain hc hcs
  | generated hd => cases hd

theorem TokenKind.Spelled.isWord {name : String} (h : (TokenKind.identifier name).Spelled d piece rest) :
    IsWord d name.toList ∧ Keyword.ofName? name = none := by
  cases h with
  | identifier hword hname _ => exact ⟨hword, hname⟩
  | mark hkind => exact absurd hkind (by simp [punctuation])

/-- The names among the tokens of a source are words, and none of them is reserved. -/
theorem TokenRun.isWord_of_mem {source : String} {t : Token} (ht : t ∈ (TokenRun.ofText d source).tokens)
    {name : String} (hkind : t.kind = .identifier name) :
    IsWord d name.toList ∧ Keyword.ofName? name = none := by
  have hall : ∀ t ∈ (TokenRun.ofText d source).tokens, t.kind = .identifier name →
      IsWord d name.toList ∧ Keyword.ofName? name = none := by
    refine TokenRun.forall_tokens (fun c t after hscan hkind => ?_) _
    obtain ⟨gap, piece, -, -, hspelled, -⟩ := scan_eq_token_iff.mp hscan
    rw [hkind] at hspelled
    exact hspelled.isWord
  exact hall t ht hkind

/-- A word that is read on its own can be written in each dialect. -/
theorem SpellsWord.exists_printable {name : String} (h : SpellsWord name) :
    ∃ w : Word, w.name = name ∧ ∀ d, w.kind.Printable d := by
  obtain ⟨w, hname, span, stop, htokens⟩ := h
  refine ⟨w, hname, fun d => ?_⟩
  cases w with
  | keyword | operator => trivial
  | identifier name' =>
    cases hname
    have hmem : ⟨.identifier name', span⟩ ∈ (TokenRun.ofText {} name').tokens := by
      unfold tokenize TokenRun.result at htokens
      split at htokens
      next stop' _ =>
        have hall : (TokenRun.ofText {} name').tokens ++ [.ending stop'] =
            [⟨.identifier name', span⟩] ++ [.ending stop] := Except.ok.inj htokens
        rw [(List.append_inj' hall rfl).1]
        exact List.mem_singleton_self _
      next => cases htokens
    obtain ⟨hword, hfree⟩ := TokenRun.isWord_of_mem hmem rfl
    exact ⟨hword.of_plain, Keyword.ofName?_eq_none_iff.mp hfree⟩

/-! ## Reading what is shown -/

/-- In front of a rest, a text is cut into tokens of the given kinds, and then the rest is. -/
def Lexes (d : Dialect) (kinds : List TokenKind) (text rest : List Char) : Prop :=
  ∀ offset, ∃ tokens, tokens.map Token.kind = kinds ∧
    TokenRun.ofCursor d ⟨offset, text ++ rest⟩ =
      { TokenRun.ofCursor d ⟨offset + byteWidth text, rest⟩ with
        tokens := tokens ++ (TokenRun.ofCursor d ⟨offset + byteWidth text, rest⟩).tokens }

/-- A text that ends what stands in front of it: it is empty, or starts with a blank or a closing
parenthesis. -/
def Delimits (rest : List Char) : Prop := ∀ c ∈ rest.head?, c = ' ' ∨ c = ')'

theorem TokenKind.Spelled.lexes (h : kind.Spelled d piece rest) : Lexes d [kind] piece rest :=
  fun offset => ⟨[⟨kind, offset, offset + byteWidth piece⟩], rfl, TokenRun.ofCursor_spelled h offset⟩

theorem lexes_nil (d : Dialect) (rest : List Char) : Lexes d [] [] rest := fun _ => ⟨[], rfl, rfl⟩

theorem Lexes.append (h : Lexes d kinds text (text' ++ rest)) (hmore : Lexes d more text' rest) :
    Lexes d (kinds ++ more) (text ++ text') rest := by
  intro offset
  obtain ⟨tokens, rfl, hread⟩ := h offset
  obtain ⟨tokens', rfl, hread'⟩ := hmore (offset + byteWidth text)
  refine ⟨tokens ++ tokens', List.map_append, ?_⟩
  rw [List.append_assoc, hread, hread']
  simp only [Text.byteWidth_append, Nat.add_assoc, List.append_assoc]

/-- A blank in front of a text moves its tokens. -/
theorem Lexes.blank (h : Lexes d kinds text rest) : Lexes d kinds (' ' :: text) rest := by
  intro offset
  obtain ⟨tokens, hkinds, hread⟩ := h (offset + byteWidth [' '])
  refine ⟨tokens, hkinds, ?_⟩
  have hblank : IsTrivia d [' '] (text ++ rest) := .of_layout (List.all_eq_true.mp (by decide)) _
  have hwidth : byteWidth (' ' :: text) = byteWidth [' '] + byteWidth text :=
    Text.byteWidth_append [' '] text
  rw [hwidth, ← Nat.add_assoc, ← hread]
  exact TokenRun.ofCursor_trivia hblank offset

/-- What stands in front of a closing parenthesis, in parentheses. -/
theorem Lexes.inParens (h : Lexes d kinds text (')' :: rest)) :
    Lexes d (inParens kinds) ('(' :: (text ++ [')'])) rest := by
  have hopen : Lexes d [.leftParen] ['('] ((text ++ [')']) ++ rest) :=
    (TokenKind.Spelled.mark (by decide) _).lexes
  have hclose : Lexes d [.rightParen] [')'] rest := (TokenKind.Spelled.mark (by decide) _).lexes
  exact hopen.append (h.append hclose)

theorem Delimits.spelled (hrest : Delimits rest) (h : kind.Printable d) :
    kind.Spelled d kind.spelling.toList rest := by
  cases rest with
  | nil => exact h.spelled_of_head rfl nofun
  | cons c rest =>
    have hc : isNameChar c = false ∧ c ≠ '=' := by obtain rfl | rfl := hrest c rfl <;> decide
    exact h.spelled_of_head hc.1 fun hequals => hc.2 (Option.some.inj hequals)

theorem delimits_nil : Delimits [] := nofun

theorem delimits_blank (rest : List Char) : Delimits (' ' :: rest) := by
  intro c hc
  cases hc
  exact .inl rfl

theorem delimits_close (rest : List Char) : Delimits (')' :: rest) := by
  intro c hc
  cases hc
  exact .inr rfl

end

theorem Word.spelling_kind (w : Word) : w.kind.spelling = w.name := by
  cases w <;> rfl

theorem Value.toList_text_list (items : List Value) :
    (Value.list items).text.toList =
      '(' :: ([' '].intercalate ((texts items).map String.toList) ++ [')']) := by
  rw [text, String.toList_append, String.toList_append, String.toList_intercalate]
  rfl

mutual
/-- Data that can be written down are shown as the tokens of a datum for them, which is as deep. -/
theorem Value.Readable.exists_datum : ∀ {v : Value}, v.Readable → ∃ datum : Datum, datum.value = v ∧
    datum.nesting = v.levels ∧ ∀ d rest, Delimits rest → Lexes d datum.kinds v.text.toList rest
  | .number n, h => by
    refine ⟨.literal (.number n), rfl, rfl, fun d rest hrest => ?_⟩
    have hprintable : (TokenKind.number n).Printable d := h
    exact (hrest.spelled hprintable).lexes
  | .string text, h => by
    refine ⟨.literal (.string text), rfl, rfl, fun d rest hrest => ?_⟩
    have hprintable : (TokenKind.string text).Printable d := h
    exact (hrest.spelled hprintable).lexes
  | .symbol name, h => by
    obtain ⟨w, rfl, hprintable⟩ := SpellsWord.exists_printable h
    refine ⟨.word w, rfl, rfl, fun d rest hrest => ?_⟩
    have hspelled := hrest.spelled (hprintable d)
    rw [w.spelling_kind] at hspelled
    exact hspelled.lexes
  | .list items, h => by
    obtain ⟨data, hvalues, hnesting, hlexes⟩ := AllReadable.exists_data h
    refine ⟨.list data, congrArg Value.list hvalues, congrArg (· + 1) hnesting, fun d rest _ => ?_⟩
    rw [Value.toList_text_list]
    exact (hlexes d _ (delimits_close rest)).inParens
/-- The items of a list are shown as the tokens of data for them. -/
theorem AllReadable.exists_data : ∀ {vs : List Value}, AllReadable vs →
    ∃ data : List Datum, Datum.values data = vs ∧ dataNesting data = deepestLevels vs ∧
      ∀ d rest, Delimits rest →
        Lexes d (dataKinds data) ([' '].intercalate ((Value.texts vs).map String.toList)) rest
  | [], _ => ⟨[], rfl, rfl, fun d rest _ => lexes_nil d rest⟩
  | [v], ⟨hv, _⟩ => by
    obtain ⟨datum, rfl, hnesting, hlexes⟩ := Value.Readable.exists_datum hv
    refine ⟨[datum], rfl, congrArg (max · 0) hnesting, fun d rest hrest => ?_⟩
    have htext : [' '].intercalate ((Value.texts [datum.value]).map String.toList) =
        datum.value.text.toList := by
      simp [Value.texts]
    rw [htext, dataKinds, dataKinds, List.append_nil]
    exact hlexes d rest hrest
  -- the blank between two items ends the first, and belongs to the text of the others
  | v :: w :: vs, ⟨hv, hvs⟩ => by
    obtain ⟨datum, rfl, hnesting, hlexes⟩ := Value.Readable.exists_datum hv
    obtain ⟨data, hvalues, hdeep, hmore⟩ := AllReadable.exists_data hvs
    refine ⟨datum :: data, congrArg (datum.value :: ·) hvalues, congr (congrArg max hnesting) hdeep, ?_⟩
    intro d rest hrest
    have htext : [' '].intercalate ((Value.texts (datum.value :: w :: vs)).map String.toList) =
        datum.value.text.toList ++
          (' ' :: [' '].intercalate ((Value.texts (w :: vs)).map String.toList)) := by
      simp [Value.texts, List.intercalate]
    rw [htext, dataKinds]
    exact (hlexes d _ (delimits_blank _)).append (hmore d rest hrest).blank
end

end LispMachine
