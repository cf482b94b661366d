import LispMachine.Proofs.Lexicon

/-!
# What a source is cut into

The tokens of a source and the trivia around them are the whole source: each token stands where its span
says and spells its kind, and between the spans is nothing but trivia (`Tokenization`). Tokenizing
succeeds exactly where a source can be cut in this way, and gives the one way to do it
(`tokenizing_loses_nothing`). Both directions follow the lexer from token to token, by
`scan_eq_token_iff`: what it reads next is a gap and a piece, and a gap and a piece are what it reads.
-/

namespace LispMachine

open Text (byteWidth)

theorem Text.eq_nil_of_byteWidth {cs : List Char} (h : byteWidth cs = 0) : cs = [] := by
  cases cs with
  | nil => rfl
  | cons c cs =>
    have hpos := c.utf8Size_pos
    rw [byteWidth] at h
    omega

/-- A text is the same behind equally wide beginnings of it. -/
theorem Text.eq_of_byteWidth {front front' rest rest' : List Char} (h : front ++ rest = front' ++ rest')
    (hwidth : byteWidth front = byteWidth front') : front = front' ∧ rest = rest' := by
  have hsplit := splitAt?_byteWidth front rest
  rw [h, hwidth, splitAt?_byteWidth front' rest'] at hsplit
  cases hsplit
  exact ⟨rfl, rfl⟩

/-- A span cuts a piece out of a text, in front of the text that follows it: it is inside of the text, and
both of its ends are between characters. -/
def Span.Cuts (s : Span) (text piece after : List Char) : Prop :=
  ∃ before, before ++ (piece ++ after) = text ∧ byteWidth before = s.start ∧
    s.start + byteWidth piece = s.stop

/-- The spans in front of tokens and behind the last one, between two offsets. -/
def gaps (stop : Nat) : Nat → List Token → List Span
  | start, [] => [⟨start, stop⟩]
  | start, t :: ts => ⟨start, t.span.start⟩ :: gaps stop t.span.stop ts

/-- Tokens are what a text is cut into from an offset on. -/
structure Tokenization (d : Dialect) (text : List Char) (start : Nat) (tokens : List Token) : Prop where
  /-- No token is empty. -/
  nonempty : ∀ t ∈ tokens, t.span.start < t.span.stop
  /-- The tokens are inside of the text, behind the offset. -/
  bounded : ∀ t ∈ tokens, start ≤ t.span.start ∧ t.span.stop ≤ byteWidth text
  /-- The tokens are in order, and none reaches into another. -/
  ordered : tokens.Pairwise fun t u => t.span.stop ≤ u.span.start
  /-- Around the tokens is nothing but trivia. -/
  trivia : ∀ s ∈ gaps (byteWidth text) start tokens, ∃ gap after, s.Cuts text gap after ∧ IsTrivia d gap after
  /-- Each token spells its kind. -/
  spelled : ∀ t ∈ tokens, ∃ piece after, t.span.Cuts text piece after ∧ t.kind.Spelled d piece after

section
variable {d : Dialect} {text before piece gap after cs : List Char} {s : Span} {t : Token}
  {tokens : List Token} {start : Nat}

theorem Span.Cuts.stop_le (h : s.Cuts text piece after) : s.stop ≤ byteWidth text := by
  obtain ⟨before, rfl, hstart, hstop⟩ := h
  rw [Text.byteWidth_append, Text.byteWidth_append]
  omega

theorem Span.Cuts.start_lt (h : s.Cuts text piece after) (hne : piece ≠ []) : s.start < s.stop := by
  obtain ⟨before, rfl, hstart, hstop⟩ := h
  obtain ⟨c, cs, rfl⟩ := List.exists_cons_of_ne_nil hne
  have hpos := c.utf8Size_pos
  rw [Text.byteWidth] at hstop
  omega

/-- What a span cuts out is what stands there. -/
theorem Span.Cuts.eq (h : s.Cuts (before ++ cs) piece after) (hwidth : byteWidth before = s.start) :
    cs = piece ++ after := by
  obtain ⟨before', happend, hwidth', -⟩ := h
  exact (Text.eq_of_byteWidth happend (hwidth'.trans hwidth.symm)).2.symm

theorem tokenization_nil : Tokenization d text start [] ↔
    ∃ gap after, (Span.mk start (byteWidth text)).Cuts text gap after ∧ IsTrivia d gap after := by
  constructor
  · exact fun h => h.trivia _ List.mem_cons_self
  · intro h
    exact {
      nonempty := List.forall_mem_nil _
      bounded := List.forall_mem_nil _
      ordered := .nil
      trivia := List.forall_mem_singleton.mpr h
      spelled := List.forall_mem_nil _ }

theorem tokenization_cons : Tokenization d text start (t :: tokens) ↔
    start ≤ t.span.start ∧
    (∃ gap after, (Span.mk start t.span.start).Cuts text gap after ∧ IsTrivia d gap after) ∧
    (∃ piece after, t.span.Cuts text piece after ∧ t.kind.Spelled d piece after) ∧
    Tokenization d text t.span.stop tokens := by
  constructor
  · rintro ⟨hnonempty, hbounded, hordered, htrivia, hspelled⟩
    obtain ⟨hbefore, hordered⟩ := List.pairwise_cons.mp hordered
    obtain ⟨hfirst, htrivia⟩ := List.forall_mem_cons.mp htrivia
    refine ⟨(hbounded t List.mem_cons_self).1, hfirst, hspelled t List.mem_cons_self, ?_⟩
    exact {
      nonempty := fun u hu => hnonempty u (List.mem_cons_of_mem t hu)
      bounded := fun u hu => ⟨hbefore u hu, (hbounded u (List.mem_cons_of_mem t hu)).2⟩
      ordered := hordered
      trivia := htrivia
      spelled := fun u hu => hspelled u (List.mem_cons_of_mem t hu) }
  · rintro ⟨hstart, hgap, ⟨piece, after, hcuts, hpiece⟩, hnonempty, hbounded, hordered, htrivia, hspelled⟩
    have hlt := hcuts.start_lt hpiece.ne_nil
    exact {
      nonempty := List.forall_mem_cons.mpr ⟨hlt, hnonempty⟩
      bounded := List.forall_mem_cons.mpr
        ⟨⟨hstart, hcuts.stop_le⟩, fun u hu => ⟨by have := (hbounded u hu).1; omega, (hbounded u hu).2⟩⟩
      ordered := List.pairwise_cons.mpr ⟨fun u hu => (hbounded u hu).1, hordered⟩
      trivia := List.forall_mem_cons.mpr ⟨hgap, htrivia⟩
      spelled := List.forall_mem_cons.mpr ⟨⟨piece, after, hcuts, hpiece⟩, hspelled⟩ }

/-! ## Tokenizing -/

/-- The tokens that are read are what the text is cut into. -/
theorem tokenization_of_ofCursor (before : List Char) {c : Cursor} {stop : Nat} (htext : before ++ c.rest = text)
    (hoffset : byteWidth before = c.offset) (h : (TokenRun.ofCursor d c).ending = .eof stop) :
    Tokenization d text c.offset (TokenRun.ofCursor d c).tokens ∧ stop = byteWidth text := by
  -- the text in front of the cursor grows by a gap and a piece with each token
  revert before
  fun_induction TokenRun.ofCursor d c with
  | case1 c after hscan =>
    intro before htext hoffset
    obtain ⟨hgap, rfl⟩ := scan_eq_finished_iff.mp hscan
    have hstop : c.offset + byteWidth c.rest = byteWidth text := by
      rw [← htext, Text.byteWidth_append, hoffset]
    cases h
    refine ⟨tokenization_nil.mpr ⟨c.rest, [], ⟨before, ?_, hoffset, hstop⟩, hgap⟩, hstop⟩
    rw [List.append_nil, htext]
  | case2 => cases h
  | case3 c t after hscan run ih =>
    intro before htext hoffset
    obtain ⟨gap, piece, hrest, hgap, hpiece, hspan, hafter⟩ := scan_eq_token_iff.mp hscan
    have hstart : t.span.start = c.offset + byteWidth gap := congrArg Span.start hspan
    have hstop : t.span.stop = c.offset + byteWidth gap + byteWidth piece := congrArg Span.stop hspan
    have hwhole : before ++ (gap ++ (piece ++ after.rest)) = text := hrest ▸ htext
    obtain ⟨htokens, hends⟩ := ih h (before ++ gap ++ piece)
      (by simpa only [List.append_assoc] using hwhole)
      (by rw [Text.byteWidth_append, Text.byteWidth_append, hoffset, hafter, hstop])
    refine ⟨tokenization_cons.mpr ⟨by omega, ⟨gap, piece ++ after.rest, ?_, hgap⟩,
      ⟨piece, after.rest, ?_, hpiece⟩, hafter ▸ htokens⟩, hends⟩
    · exact ⟨before, hwhole, hoffset, hstart.symm⟩
    · refine ⟨before ++ gap, ?_, ?_, ?_⟩
      · rw [List.append_assoc, hwhole]
      · rw [Text.byteWidth_append, hoffset, hstart]
      · rw [hstart, hstop]

/-- What a text can be cut into is what is read. -/
theorem ofCursor_of_tokenization (before : List Char) {c : Cursor} (htext : before ++ c.rest = text)
    (hoffset : byteWidth before = c.offset) (h : Tokenization d text c.offset tokens) :
    (TokenRun.ofCursor d c).tokens = tokens ∧ (TokenRun.ofCursor d c).ending = .eof (byteWidth text) := by
  induction tokens generalizing before c with
  | nil =>
    obtain ⟨gap, after, hcuts, hgap⟩ := tokenization_nil.mp h
    have hrest : c.rest = gap ++ after := Span.Cuts.eq (htext.symm ▸ hcuts) hoffset
    have hwidth : c.offset + byteWidth c.rest = byteWidth text := by
      rw [← htext, Text.byteWidth_append, hoffset]
    have hafter : after = [] := by
      obtain ⟨-, -, -, hstop⟩ := hcuts
      have hstop : c.offset + byteWidth gap = byteWidth text := hstop
      rw [hrest, Text.byteWidth_append] at hwidth
      exact Text.eq_nil_of_byteWidth (by omega)
    rw [hafter, List.append_nil] at hrest
    have hscan := scan_eq_finished_iff.mpr ⟨hrest.symm ▸ hafter ▸ hgap, rfl⟩
    rw [TokenRun.ofCursor_eq, hscan]
    exact ⟨rfl, congrArg Ending.eof hwidth⟩
  | cons t tokens ih =>
    obtain ⟨-, ⟨gap, behind, hcutsGap, hgap⟩, ⟨piece, after, hcuts, hpiece⟩, htokens⟩ :=
      tokenization_cons.mp h
    have hrest : c.rest = gap ++ behind := Span.Cuts.eq (htext.symm ▸ hcutsGap) hoffset
    obtain ⟨-, -, -, hstart⟩ := hcutsGap
    have hwhole : (before ++ gap) ++ behind = text := by rw [List.append_assoc, ← hrest, htext]
    have hwidth : byteWidth (before ++ gap) = t.span.start := by
      rw [Text.byteWidth_append, hoffset, hstart]
    -- two cuts at one offset leave the same text behind them
    have hbehind : behind = piece ++ after := Span.Cuts.eq (hwhole.symm ▸ hcuts) hwidth
    obtain ⟨-, -, -, hstop⟩ := hcuts
    have hspan : t.span = ⟨c.offset + byteWidth gap, c.offset + byteWidth gap + byteWidth piece⟩ := by
      rw [hstart, hstop]
    have hscan : scan d c = .token t ⟨t.span.stop, after⟩ :=
      scan_eq_token_iff.mpr ⟨gap, piece, hbehind ▸ hrest, hbehind ▸ hgap, hpiece, hspan, rfl⟩
    obtain ⟨htail, hends⟩ := ih (before ++ gap ++ piece) (c := ⟨t.span.stop, after⟩)
      (by rw [List.append_assoc, ← hbehind, hwhole])
      (by rw [Text.byteWidth_append, hwidth, hstop]) htokens
    rw [TokenRun.ofCursor_eq, hscan]
    exact ⟨congrArg (t :: ·) htail, hends⟩

/-- **Tokenizing loses nothing.** A source has tokens if they and the trivia around them are the whole
source, with its end behind them. -/
theorem tokenizing_loses_nothing (d : Dialect) (source : String) (ts : List Token) :
    tokenize d source = .ok ts ↔ ∃ tokens, ts = tokens ++ [.ending (byteWidth source.toList)] ∧
      Tokenization d source.toList 0 tokens := by
  constructor
  · intro h
    unfold tokenize TokenRun.result at h
    split at h
    next stop hends =>
      cases h
      obtain ⟨htokens, rfl⟩ := tokenization_of_ofCursor [] rfl rfl hends
      exact ⟨_, rfl, htokens⟩
    next => cases h
  · rintro ⟨tokens, rfl, h⟩
    obtain ⟨htokens, hends⟩ := ofCursor_of_tokenization [] (c := .ofText source)
      (List.nil_append source.toList) rfl h
    unfold tokenize TokenRun.result TokenRun.ofText
    rw [hends, htokens]

end

end LispMachine
