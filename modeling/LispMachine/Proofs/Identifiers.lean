import LispMachine.Proofs.Acceptance

/-!
# Identifiers

A name is an identifier if it can stand in a source as one. An identifier is no reserved word, and it
starts like a word, so it is no operator either.
-/

namespace LispMachine

/-- A name that some source has an identifier of. -/
def IsIdentifier (name : String) : Prop :=
  ∃ d source, ∃ t ∈ (TokenRun.ofText d source).tokens, t.kind = .identifier name

/-- Whether characters start like a word: with a letter, or with an exclamation mark in front of a
character of names. -/
def startsWord : List Char → Bool
  | [] => false
  | c :: rest => c.isAlpha || (c = '!' && rest.head?.any isNameChar)

theorem mark?_ne_identifier {cs rest : List Char} {kind : TokenKind} (h : mark? cs = some (kind, rest))
    (name : String) : kind ≠ .identifier name := by
  rintro rfl
  unfold mark? at h
  split at h <;> cases h

/-- What is known of a lexeme that may become an identifier: a word starts like one, and what is no word
is no identifier. -/
def Lexeme.StartsWord : Lexeme → Prop
  | .word name => startsWord name
  | .fixed kind => ∀ name, kind ≠ .identifier name
  | .digits _ | .string _ => True

theorem Lexeme.StandsBefore.startsWord {d : Dialect} {after : List Char} {l : Lexeme}
    (h : l.StandsBefore d after) : l.StartsWord := by
  cases h with
  | digits | string => exact trivial
  | word hc => exact Bool.or_eq_true_iff.mpr (.inl hc)
  | generated hd hne hname =>
    obtain ⟨c, more, rfl⟩ := List.exists_cons_of_ne_nil hne
    have hc : isNameChar c := hname c List.mem_cons_self
    rw [Lexeme.StartsWord, LispMachine.startsWord, Bool.or_eq_true_iff]
    exact .inr (Bool.and_eq_true_iff.mpr ⟨decide_eq_true rfl, hc⟩)
  | boolean b =>
    intro name hkind
    cases hkind
  | mark hmark => exact mark?_ne_identifier hmark

theorem TokenKind.ofWord_eq_identifier {word name : String} (h : ofWord word = .identifier name) :
    word = name ∧ Keyword.ofName? name = none := by
  unfold ofWord at h
  split at h
  · cases h
  next hword =>
    cases h
    exact ⟨rfl, hword⟩

/-- An identifier in a source is no reserved word and starts like a word. -/
theorem scan_identifier {d : Dialect} {c after : Cursor} {t : Token} {name : String}
    (h : scan d c = .token t after) (hkind : t.kind = .identifier name) :
    Keyword.ofName? name = none ∧ startsWord name.toList := by
  obtain ⟨l, rest, hlexeme, hlkind⟩ := exists_lexeme_of_scan h
  have hstarts := (lexeme?_eq_some_iff.mp hlexeme).2.startsWord
  rw [hkind] at hlkind
  cases l with
  | digits text =>
    rw [Lexeme.kind] at hlkind
    split at hlkind <;> cases hlkind
  | word chars =>
    obtain ⟨rfl, hname⟩ := TokenKind.ofWord_eq_identifier (Except.ok.inj hlkind)
    rw [String.toList_ofList]
    exact ⟨hname, hstarts⟩
  | string text => cases hlkind
  | fixed kind =>
    cases hlkind
    exact absurd rfl (hstarts name)

namespace IsIdentifier
variable {name : String}

theorem startsWord_and_not_reserved (h : IsIdentifier name) :
    Keyword.ofName? name = none ∧ startsWord name.toList := by
  obtain ⟨d, source, t, ht, hkind⟩ := h
  exact TokenRun.forall_tokens (fun _ _ _ => scan_identifier) _ t ht hkind

theorem ne_keyword (h : IsIdentifier name) (k : Keyword) : name ≠ k.name := by
  rintro rfl
  have hnone := h.startsWord_and_not_reserved.1
  cases k <;> exact absurd hnone (by decide)

theorem ne_symbol (h : IsIdentifier name) (o : Operator) : name ≠ o.symbol := by
  rintro rfl
  have hstarts := h.startsWord_and_not_reserved.2
  cases o <;> exact absurd hstarts (by decide)

end IsIdentifier

end LispMachine
