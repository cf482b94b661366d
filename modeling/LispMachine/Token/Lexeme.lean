import LispMachine.Token

/-!
# Lexemes

A source text is cut into trivia (blanks and comments) and lexemes. Every function here takes the
characters that are still to be read and gives back the piece it recognises together with the rest,
so that the piece followed by the rest is always what it was given: `trivia_append`,
`lexeme?_append`.

A lexeme goes on as far as it can, so whether it ends at some place depends on what stands behind. This is
all that there is to know (`Lexeme.StandsBefore`): the function that looks for a lexeme finds the one that
stands at the front of the text, and none otherwise (`lexeme?_eq_some_iff`).
-/

namespace LispMachine

/-- The two choices that a reader of the language has. -/
structure Dialect where
  /-- A semicolon starts a comment, which runs to the end of its line. -/
  comments : Bool := true
  /-- Names that start with an exclamation mark, which only generated programs use, are allowed. -/
  generatedNames : Bool := false
deriving DecidableEq, Repr

/-- The blanks that may stand between tokens: spaces, tabs and the two characters of line endings. -/
def isLayout (c : Char) : Bool := c = ' ' || c = '\t' || c = '\r' || c = '\n'

/-- The characters that a name is made of, its first one apart. -/
def isNameChar (c : Char) : Bool :=
  c.isAlphanum || c = '-' || c = '_' || c = '?' || c = '!' || c = '*'

/-- The text of a comment behind its semicolon, up to the line ending or the end of the source. A
carriage return is a line ending only together with a line feed, and a comment that holds a lone one
is no comment. -/
def commentBody? : List Char → Option (List Char × List Char)
  | [] => some ([], [])
  | '\n' :: rest => some ([], '\n' :: rest)
  | '\r' :: '\n' :: rest => some ([], '\r' :: '\n' :: rest)
  | c :: rest =>
    if c = '\r' then none else (commentBody? rest).map fun (body, after) => (c :: body, after)

theorem commentBody?_append {cs body rest : List Char} (h : commentBody? cs = some (body, rest)) :
    body ++ rest = cs := by
  fun_induction commentBody? cs generalizing body rest with
  | case1 | case2 | case3 =>
    cases h
    rfl
  | case4 => cases h
  | case5 c cs _ _ _ ih =>
    obtain ⟨⟨b, r⟩, hb, he⟩ := Option.map_eq_some_iff.mp h
    cases he
    exact congrArg (c :: ·) (ih hb)

/-- The blanks and comments at the front of a text, and the text behind them. -/
def trivia (d : Dialect) : List Char → List Char × List Char
  | [] => ([], [])
  | c :: rest =>
    if isLayout c then
      let (skipped, after) := trivia d rest
      (c :: skipped, after)
    else if d.comments ∧ c = ';' then
      match _h : commentBody? rest with
      | some (body, next) =>
        let (skipped, after) := trivia d next
        (c :: body ++ skipped, after)
      | none => ([], c :: rest)
    else ([], c :: rest)
termination_by cs => cs.length
decreasing_by
  · exact Nat.lt_succ_self _
  · have := congrArg List.length (commentBody?_append _h)
    rw [List.length_append] at this
    rw [List.length_cons]
    omega

/-- Trivia and what follows them are the whole text. -/
theorem trivia_append (d : Dialect) (cs : List Char) : (trivia d cs).1 ++ (trivia d cs).2 = cs := by
  fun_induction trivia d cs with
  | case1 | case4 | case5 => rfl
  | case2 c cs _ skipped after hskip ih =>
    rw [hskip] at ih
    exact congrArg (c :: ·) ih
  | case3 c cs _ _ body next hbody skipped after hskip ih =>
    rw [hskip] at ih
    have happend := commentBody?_append hbody
    rw [← ih, ← List.append_assoc] at happend
    exact congrArg (c :: ·) happend

/-- A lexeme: what was recognised, before words are looked up and digits converted. -/
inductive Lexeme where
  | digits (text : List Char)
  | word (name : List Char)
  /-- The characters between two double quotes. -/
  | string (text : List Char)
  /-- A truth value, an operator or a punctuation mark. -/
  | fixed (kind : TokenKind)
deriving DecidableEq, Repr

/-- The characters of a lexeme. -/
def Lexeme.text : Lexeme → List Char
  | digits text => text
  | word name => name
  | string text => '\x22' :: text ++ ['\x22']
  | fixed kind => kind.spelling.toList

/-- A punctuation mark or an operator at the front of a text. Of two operators of which one begins
the other, the longer is taken. -/
def mark? : List Char → Option (TokenKind × List Char)
  | '(' :: rest => some (.leftParen, rest)
  | ')' :: rest => some (.rightParen, rest)
  | '\x27' :: rest => some (.quote, rest)
  | '\x60' :: rest => some (.backquote, rest)
  | ',' :: rest => some (.comma, rest)
  | '<' :: '=' :: rest => some (.operator .le, rest)
  | '>' :: '=' :: rest => some (.operator .ge, rest)
  | '!' :: '=' :: rest => some (.operator .ne, rest)
  | '<' :: rest => some (.operator .lt, rest)
  | '>' :: rest => some (.operator .gt, rest)
  | '=' :: rest => some (.operator .eq, rest)
  | '+' :: rest => some (.operator .add, rest)
  | '-' :: rest => some (.operator .sub, rest)
  | '*' :: rest => some (.operator .mul, rest)
  | '/' :: rest => some (.operator .div, rest)
  | _ => none

/-- A truth value behind its hash. A name character may not follow it. -/
def truthValue? : List Char → Option (Bool × List Char)
  | c :: rest =>
    if rest.head?.any isNameChar then none
    else if c = 't' then some (true, rest)
    else if c = 'f' then some (false, rest)
    else none
  | [] => none

/-- The lexeme at the front of a text that starts with no trivia. -/
def lexeme? (d : Dialect) (cs : List Char) : Option (Lexeme × List Char) :=
  match cs with
  | [] => none
  | c :: rest =>
    if c.isDigit then some (.digits (cs.takeWhile Char.isDigit), cs.dropWhile Char.isDigit)
    else if c.isAlpha then
      some (.word (c :: rest.takeWhile isNameChar), rest.dropWhile isNameChar)
    else if c = '\x22' then
      match rest.dropWhile (· ≠ '\x22') with
      | _ :: after => some (.string (rest.takeWhile (· ≠ '\x22')), after)
      | [] => none
    else if c = '#' then (truthValue? rest).map fun (b, after) => (.fixed (.boolean b), after)
    else
      match mark? cs with
      | some (kind, after) => some (.fixed kind, after)
      | none =>
        if d.generatedNames ∧ c = '!' ∧ rest.head?.any isNameChar then
          some (.word (c :: rest.takeWhile isNameChar), rest.dropWhile isNameChar)
        else none

/-! ### Stretches of characters -/

section
variable {p : Char → Bool} {cs after : List Char}

theorem takeWhile_of_stop (hcs : ∀ c ∈ cs, p c) (hafter : after.head?.any p = false) :
    (cs ++ after).takeWhile p = cs := by
  rw [List.takeWhile_append_of_pos hcs]
  cases after with
  | nil => exact List.append_nil cs
  | cons c after =>
    have hc : ¬ p c := Bool.eq_false_iff.mp hafter
    rw [List.takeWhile_cons_of_neg hc, List.append_nil]

theorem dropWhile_of_stop (hcs : ∀ c ∈ cs, p c) (hafter : after.head?.any p = false) :
    (cs ++ after).dropWhile p = after := by
  rw [List.dropWhile_append_of_pos hcs]
  cases after with
  | nil => rfl
  | cons c after => exact List.dropWhile_cons_of_neg (Bool.eq_false_iff.mp hafter)

theorem forall_mem_takeWhile (p : Char → Bool) (cs : List Char) : ∀ c ∈ cs.takeWhile p, p c :=
  List.all_eq_true.mp List.all_takeWhile

theorem takeWhile_ne_nil (h : cs.head?.any p) : cs.takeWhile p ≠ [] := by
  cases cs with
  | nil => cases h
  | cons c rest =>
    have hc : p c := h
    rw [List.takeWhile_cons_of_pos hc]
    exact List.cons_ne_nil _ _

/-- The head of what is left after dropping is where dropping stopped. -/
theorem head_dropWhile {rest : List Char} {c : Char} (h : cs.dropWhile p = c :: rest) : p c = false := by
  have hhead := List.head_dropWhile_not p (l := cs) (by rw [h]; exact List.cons_ne_nil c rest)
  simpa only [h, List.head_cons] using hhead

theorem head?_dropWhile (p : Char → Bool) (cs : List Char) : (cs.dropWhile p).head?.any p = false := by
  cases h : cs.dropWhile p with
  | nil => rfl
  | cons c rest => exact head_dropWhile h

end

/-! ### Marks and truth values -/

section
variable {cs rest : List Char}

/-- A mark is spelled as it stands in the text. -/
theorem mark?_append {kind : TokenKind} (h : mark? cs = some (kind, rest)) :
    kind.spelling.toList ++ rest = cs := by
  revert h
  fun_cases mark? cs with
  | case16 => nofun
  | _ =>
    rintro ⟨⟩
    rfl

/-- A mark has one character or two. -/
theorem mark?_length {kind : TokenKind} (h : mark? cs = some (kind, rest)) : rest.length < cs.length := by
  revert h
  fun_cases mark? cs with
  | case6 after | case7 after | case8 after =>
    -- the operators of two characters
    rintro ⟨⟩
    exact Nat.lt_add_of_pos_right (Nat.succ_pos 1)
  | case16 => nofun
  | _ =>
    rintro ⟨⟩
    exact Nat.lt_succ_self _

/-- Marks start like nothing else in a text. -/
theorem mark?_head {kind : TokenKind} (h : mark? cs = some (kind, rest)) :
    ∃ c tail, cs = c :: tail ∧ ¬ isLayout c ∧ ¬ c.isDigit ∧ ¬ c.isAlpha ∧ c ≠ '\x22' ∧ c ≠ '#' := by
  revert h
  fun_cases mark? cs with
  | case16 => nofun
  | _ => exact fun _ => ⟨_, _, rfl, by decide⟩

/-- A name that starts with an exclamation mark is not an operator. -/
theorem mark?_exclamation {c : Char} (h : isNameChar c) : mark? ('!' :: c :: cs) = none := by
  have hne : c ≠ '=' := by
    rintro rfl
    exact absurd h (by decide)
  rw [mark?]
  all_goals simp [hne]

/-- A truth value is one of two letters, and no character of a name stands behind it. -/
theorem truthValue?_eq_some_iff {b : Bool} : truthValue? cs = some (b, rest) ↔
    (if b then 't' else 'f') :: rest = cs ∧ rest.head?.any isNameChar = false := by
  constructor
  · fun_cases truthValue? cs with
    | case1 c after hname => nofun
    | case2 after hname | case3 after hname =>
      rintro ⟨⟩
      exact ⟨rfl, Bool.eq_false_iff.mpr hname⟩
    | case4 c after hname ht hf => nofun
    | case5 => nofun
  · rintro ⟨rfl, hname⟩
    rw [truthValue?, if_neg (Bool.eq_false_iff.mp hname)]
    cases b <;> rfl

end

/-! ### Lexemes -/

/-- Letters stand behind the digits. -/
theorem not_isDigit_of_isAlpha {c : Char} (h : c.isAlpha) : ¬ c.isDigit := by
  have hletter : 'A'.val ≤ c.val := by
    obtain hupper | hlower := Bool.or_eq_true_iff.mp h
    · exact (of_decide_eq_true hupper).1
    · exact UInt32.le_trans (by decide) (of_decide_eq_true (Bool.and_eq_true_iff.mp hlower).1)
  intro hdigit
  have hle := of_decide_eq_true (Bool.and_eq_true_iff.mp hdigit).2
  exact absurd (UInt32.le_trans hletter hle) (by decide)

/-- What a lexeme is made of, and which text may stand behind it. -/
inductive Lexeme.StandsBefore (d : Dialect) : Lexeme → List Char → Prop
  | digits {text after : List Char} (hne : text ≠ []) (htext : ∀ c ∈ text, c.isDigit)
    (hafter : after.head?.any Char.isDigit = false) : StandsBefore d (.digits text) after
  | word {c : Char} {name after : List Char} (hc : c.isAlpha) (hname : ∀ x ∈ name, isNameChar x)
    (hafter : after.head?.any isNameChar = false) : StandsBefore d (.word (c :: name)) after
  /-- A name that starts with an exclamation mark and does not end there. -/
  | generated {name after : List Char} (hd : d.generatedNames) (hne : name ≠ [])
    (hname : ∀ x ∈ name, isNameChar x) (hafter : after.head?.any isNameChar = false) :
    StandsBefore d (.word ('!' :: name)) after
  | string {text : List Char} (htext : '\x22' ∉ text) (after : List Char) :
    StandsBefore d (.string text) after
  | boolean (b : Bool) {after : List Char} (hafter : after.head?.any isNameChar = false) :
    StandsBefore d (.fixed (.boolean b)) after
  | mark {kind : TokenKind} {after : List Char}
    (hmark : mark? (kind.spelling.toList ++ after) = some (kind, after)) : StandsBefore d (.fixed kind) after

section
variable {d : Dialect} {cs rest : List Char} {l : Lexeme}

theorem spelling_boolean (b : Bool) :
    (TokenKind.boolean b).spelling.toList = ['#', if b then 't' else 'f'] := by
  cases b <;> rfl

/-- A lexeme that is read stands at the front of the text. -/
theorem standsBefore_of_lexeme? (h : lexeme? d cs = some (l, rest)) :
    l.text ++ rest = cs ∧ l.StandsBefore d rest := by
  revert h
  fun_cases lexeme? d cs with
  | case1 => nofun
  | case2 c cs hdigit =>
    rintro ⟨⟩
    refine ⟨List.takeWhile_append_dropWhile, ?_⟩
    exact .digits (takeWhile_ne_nil hdigit) (forall_mem_takeWhile _ _) (head?_dropWhile _ _)
  | case3 c cs _ halpha =>
    rintro ⟨⟩
    refine ⟨congrArg (c :: ·) List.takeWhile_append_dropWhile, ?_⟩
    exact .word halpha (forall_mem_takeWhile _ _) (head?_dropWhile _ _)
  | case4 cs quote after hdrop =>
    rintro ⟨⟩
    have hquote : quote = '\x22' := Decidable.of_not_not (of_decide_eq_false (head_dropWhile hdrop))
    have happend := List.takeWhile_append_dropWhile (p := (· ≠ '\x22')) (l := cs)
    rw [hdrop, hquote] at happend
    refine ⟨?_, .string (fun hmem => ?_) rest⟩
    · rw [Lexeme.text, List.append_assoc]
      exact congrArg ('\x22' :: ·) happend
    · exact absurd rfl (of_decide_eq_true (forall_mem_takeWhile _ _ _ hmem))
  | case5 => nofun
  -- the hash of a truth value
  | case6 cs =>
    intro h
    obtain ⟨⟨b, after⟩, hb, heq⟩ := Option.map_eq_some_iff.mp h
    cases heq
    obtain ⟨rfl, hname⟩ := truthValue?_eq_some_iff.mp hb
    refine ⟨?_, .boolean b hname⟩
    rw [Lexeme.text, spelling_boolean]
    rfl
  | case7 c cs _ _ _ _ kind after hmark =>
    rw [hmark]
    rintro ⟨⟩
    have happend := mark?_append hmark
    exact ⟨happend, .mark (happend ▸ hmark)⟩
  -- no mark starts here, which leaves the names that start with an exclamation mark
  | case8 c cs _ _ _ _ hgenerated hmark =>
    rw [hmark]
    simp only
    rw [if_pos hgenerated]
    rintro ⟨⟩
    obtain ⟨hd, rfl, hhead⟩ := hgenerated
    refine ⟨congrArg ('!' :: ·) List.takeWhile_append_dropWhile, ?_⟩
    exact .generated hd (takeWhile_ne_nil hhead) (forall_mem_takeWhile _ _) (head?_dropWhile _ _)
  | case9 c cs _ _ _ _ hgenerated hmark =>
    rw [hmark]
    simp only
    rw [if_neg hgenerated]
    nofun

/-- What stands at the front of the text is read, since each kind of lexeme starts in its own way. -/
theorem Lexeme.StandsBefore.lexeme?_eq (h : l.StandsBefore d rest) :
    lexeme? d (l.text ++ rest) = some (l, rest) := by
  cases h with
  | @digits text _ hne htext hafter =>
    obtain ⟨c, more, rfl⟩ := List.exists_cons_of_ne_nil hne
    have htake := takeWhile_of_stop htext hafter
    have hdrop := dropWhile_of_stop htext hafter
    rw [List.cons_append] at htake hdrop
    rw [Lexeme.text, List.cons_append, lexeme?, if_pos (htext c List.mem_cons_self), htake, hdrop]
  | word hc hname hafter =>
    rw [Lexeme.text, List.cons_append, lexeme?, if_neg (not_isDigit_of_isAlpha hc), if_pos hc,
      takeWhile_of_stop hname hafter, dropWhile_of_stop hname hafter]
  | @generated name _ hd hne hname hafter =>
    obtain ⟨c, more, rfl⟩ := List.exists_cons_of_ne_nil hne
    have hc : isNameChar c := hname c List.mem_cons_self
    -- alone, or in front of an equals sign, the exclamation mark would be an operator
    have hmark : mark? ('!' :: (c :: more ++ rest)) = none := mark?_exclamation hc
    rw [Lexeme.text, List.cons_append, lexeme?, if_neg (by decide), if_neg (by decide),
      if_neg (by decide), if_neg (by decide), hmark]
    simp only
    rw [if_pos ⟨hd, trivial, hc⟩, takeWhile_of_stop hname hafter, dropWhile_of_stop hname hafter]
  | @string text htext =>
    have hall : ∀ c ∈ text, decide (c ≠ '\x22') := by
      intro c hc
      exact decide_eq_true fun heq => htext (heq ▸ hc)
    have hstop : ('\x22' :: rest).head?.any (fun c => decide (c ≠ '\x22')) = false := rfl
    rw [Lexeme.text, List.cons_append, List.cons_append, List.append_assoc, List.singleton_append,
      lexeme?, if_neg (by decide), if_neg (by decide), if_pos rfl, dropWhile_of_stop hall hstop,
      takeWhile_of_stop hall hstop]
  | boolean b hafter =>
    rw [Lexeme.text, spelling_boolean, List.cons_append, lexeme?, if_neg (by decide),
      if_neg (by decide), if_neg (by decide), if_pos rfl, List.singleton_append,
      truthValue?_eq_some_iff.mpr ⟨rfl, hafter⟩, Option.map_some]
  | @mark kind _ hmark =>
    rw [Lexeme.text]
    obtain ⟨c, more, htext, -, hdigit, halpha, hquote, hhash⟩ := mark?_head hmark
    rw [htext] at hmark ⊢
    rw [lexeme?, if_neg hdigit, if_neg halpha, if_neg hquote, if_neg hhash, hmark]

/-- **Which lexeme is read.** -/
theorem lexeme?_eq_some_iff :
    lexeme? d cs = some (l, rest) ↔ l.text ++ rest = cs ∧ l.StandsBefore d rest := by
  constructor
  · exact standsBefore_of_lexeme?
  · rintro ⟨rfl, hstands⟩
    exact hstands.lexeme?_eq

/-- A lexeme and what follows it are the whole text. -/
theorem lexeme?_append (h : lexeme? d cs = some (l, rest)) : l.text ++ rest = cs :=
  (lexeme?_eq_some_iff.mp h).1

theorem Lexeme.StandsBefore.text_ne_nil (h : l.StandsBefore d rest) : l.text ≠ [] := by
  cases h with
  | digits hne => exact hne
  | word | generated | string => exact List.cons_ne_nil _ _
  | boolean b =>
    rw [Lexeme.text, spelling_boolean]
    exact List.cons_ne_nil _ _
  | @mark kind _ hmark =>
    intro hnil
    have hlength := mark?_length hmark
    rw [show kind.spelling.toList = [] from hnil] at hlength
    exact Nat.lt_irrefl _ hlength

/-- A lexeme is never empty: what follows it is shorter than the text it was read from. -/
theorem lexeme?_length (h : lexeme? d cs = some (l, rest)) : rest.length < cs.length := by
  obtain ⟨rfl, hstands⟩ := lexeme?_eq_some_iff.mp h
  rw [List.length_append]
  exact Nat.lt_add_of_pos_left (List.length_pos_iff.mpr hstands.text_ne_nil)

end

end LispMachine
