import LispMachine.Bytecode.Compiled
import LispMachine.Proofs.Parsed
import LispMachine.Proofs.Written

/-!
# The compiler accepts exactly its language

A source compiles when its tokens are those of a well-formed program that is not nested too deeply, and
only then; its code is the code of the rules, and the names that are defined afterwards are those
before it with the names that the program defines (`compiler_accepts_exactly_the_grammar`).

For this the reader has to come to the end of the tokens: it stops where the source ends, since no
token in a source is the mark of its end (`TokenRun.kind_ne_eof`). One direction then rests on what the
reader takes (`LispMachine.Proofs.Parsed`), the other on what it cannot help but accept
(`LispMachine.Proofs.Written`).
-/

namespace LispMachine

open Read

/-! ## The tokens of a source -/

/-- No lexeme is the end of the source, which is written as nothing. -/
theorem lexeme?_ne_eof {d : Dialect} {cs rest : List Char} {l : Lexeme}
    (h : lexeme? d cs = some (l, rest)) : l ≠ .fixed .eof := by
  rintro rfl
  have hlength := lexeme?_length h
  rw [← lexeme?_append h] at hlength
  exact Nat.lt_irrefl _ hlength

theorem Lexeme.kind_ne_eof {offset : Nat} {l : Lexeme} {kind : TokenKind} (h : l.kind offset = .ok kind)
    (hl : l ≠ .fixed .eof) : kind ≠ .eof := by
  rintro rfl
  cases l with
  | digits text =>
    rw [Lexeme.kind] at h
    split at h <;> cases h
  | word name =>
    rw [Lexeme.kind, TokenKind.ofWord] at h
    split at h <;> cases h
  | string text => cases h
  | fixed kind =>
    cases h
    exact hl rfl

/-- A token has the kind of a lexeme. -/
theorem exists_lexeme_of_scan {d : Dialect} {c after : Cursor} {t : Token}
    (h : scan d c = .token t after) :
    ∃ l rest, lexeme? d (c.skipTrivia d).rest = some (l, rest) ∧
      l.kind (c.skipTrivia d).offset = .ok t.kind := by
  unfold scan at h
  simp only at h
  split at h
  next => cases h
  next =>
    split at h
    next => cases h
    next l rest hlexeme =>
      split at h
      next => cases h
      next kind hkind =>
        cases h
        exact ⟨l, rest, hlexeme, hkind⟩

/-- What holds of each token that is read holds of all tokens of a source. -/
theorem TokenRun.forall_tokens {d : Dialect} {P : Token → Prop}
    (h : ∀ c t after, scan d c = .token t after → P t) (c : Cursor) :
    ∀ t ∈ (TokenRun.ofCursor d c).tokens, P t := by
  fun_induction TokenRun.ofCursor d c with
  | case1 => exact List.forall_mem_nil _
  | case2 => exact List.forall_mem_nil _
  | case3 c t after hscan run ih => exact List.forall_mem_cons.mpr ⟨h c t after hscan, ih⟩

/-- No token of a source is the mark of its end. -/
theorem TokenRun.kind_ne_eof (d : Dialect) (c : Cursor) :
    ∀ t ∈ (TokenRun.ofCursor d c).tokens, t.kind ≠ .eof := by
  refine TokenRun.forall_tokens (fun c t after h => ?_) c
  obtain ⟨l, rest, hlexeme, hkind⟩ := exists_lexeme_of_scan h
  exact Lexeme.kind_ne_eof hkind (lexeme?_ne_eof hlexeme)

/-- A source is tokenized if its tokens are followed by its end. -/
theorem exists_ending_of_tokenize {d : Dialect} {source : String} {ts : List Token}
    (h : tokenize d source = .ok ts) : ∃ stop, (TokenRun.ofText d source).ending = .eof stop ∧
      ts.map Token.kind = (TokenRun.ofText d source).tokens.map Token.kind ++ [.eof] := by
  unfold tokenize TokenRun.result at h
  split at h
  next stop hending =>
    cases h
    exact ⟨stop, hending, List.map_append⟩
  next => cases h

/-! ## The reader comes to the end -/

/-- A try that gives no form stands at the end of the tokens, unless one of them marks the end. -/
theorem tryTopForm_none {inner : Readers} {scope : Scope} {f f' : Feed}
    (hne : ∀ t ∈ f.tokens, t.kind ≠ .eof) (h : tryTopForm inner scope f = .ok (none, f')) :
    f.tokens = [] ∧ ∃ stop, f.ending = .eof stop := by
  obtain ⟨t, f₁, hpeek, hrest⟩ := bind_eq_ok h
  have hkind : t.kind = .eof := by
    cases hkind : t.kind with
    | eof => rfl
    -- a closing parenthesis is an error here, and any other token starts a form
    | rightParen =>
      simp only [hkind] at hrest
      cases hrest
    | _ =>
      simp only [hkind] at hrest
      obtain ⟨form, f₂, -, hpure⟩ := bind_eq_ok hrest
      cases hpure
  unfold peek at hpeek
  split at hpeek
  next first rest ending htokens =>
    cases hpeek
    exact absurd hkind (hne t (by rw [htokens]; exact List.mem_cons_self))
  next stop htokens hending => exact ⟨htokens, stop, hending⟩
  next => cases hpeek

/-- Forms that are collected to the end take all tokens. -/
theorem Collects.kinds_eq {inner : Readers} {level : Nat} (hsound : inner.Sound level)
    (hle : level + 1 ≤ maxNesting) {scope : Scope} {f f' : Feed} {p : Program}
    (h : Collects (tryTopForm inner) scope f p f') (hscope : scope.locals = [])
    (hne : ∀ t ∈ f.tokens, t.kind ≠ .eof) :
    f.tokens.map Token.kind = p.bare.kinds ∧ ∃ stop, f.ending = .eof stop := by
  induction h with
  | done hstep =>
    obtain ⟨htokens, hending⟩ := tryTopForm_none hne hstep
    rw [htokens]
    exact ⟨rfl, hending⟩
  | item hstep _ ih =>
    obtain hnone | ⟨form, hsome, htakes, -⟩ := tryTopForm_eq_ok hsound hle hscope hstep
    · cases hnone
    · cases hsome
      obtain ⟨used, hf, hused⟩ := htakes.tokens
      rw [hf] at hne ⊢
      -- each form takes its own tokens, and the feed behind it ends as before
      obtain ⟨hrest, stop, hending⟩ := ih rfl fun t ht => hne t (List.mem_append_right _ ht)
      refine ⟨?_, stop, htakes.ending.symm.trans hending⟩
      rw [List.map_append, hused, hrest, ← TopForm.kinds_bare]
      rfl

/-- The tokens of a source that is read are those of the program, and then the source ends. -/
theorem Program.kinds_of_ofRun {globals : List String} {r : TokenRun} {p : Program}
    (hne : ∀ t ∈ r.tokens, t.kind ≠ .eof) (h : Program.ofRun globals r = .ok p) :
    r.tokens.map Token.kind = p.bare.kinds ∧ ∃ stop, r.ending = .eof stop := by
  have hsound := readers_sound (maxNesting - 1)
  have hle : maxNesting - 1 + 1 ≤ maxNesting := by decide
  unfold Program.ofRun StateT.run' at h
  cases hread : readProgram (readers (maxNesting - 1)) { globals } (.ofRun r) with
  | error e =>
    rw [hread] at h
    cases h
  | ok result =>
    rw [hread] at h
    cases h
    obtain ⟨f₁, hcollects⟩ := collects_of_readProgram hsound hle hread
    exact hcollects.kinds_eq hsound hle rfl hne

/-! ## Compilation -/

/-- The tokens of a source are those of a program, with the end of the source behind them. -/
def Listing.Spells (p : Listing) (d : Dialect) (source : String) : Prop :=
  ∃ tokens, tokenize d source = .ok tokens ∧ tokens.map Token.kind = p.kinds ++ [.eof]

theorem Listing.spells_iff {p : Listing} {d : Dialect} {source : String} :
    p.Spells d source ↔ (TokenRun.ofText d source).tokens.map Token.kind = p.kinds ∧
      ∃ stop, (TokenRun.ofText d source).ending = .eof stop := by
  unfold Spells tokenize TokenRun.result
  constructor
  · rintro ⟨tokens, htokens, hkinds⟩
    cases hending : (TokenRun.ofText d source).ending with
    | fault e =>
      rw [hending] at htokens
      cases htokens
    | eof stop =>
      rw [hending] at htokens
      cases htokens
      rw [List.map_append] at hkinds
      exact ⟨List.append_cancel_right hkinds, stop, rfl⟩
  · rintro ⟨hkinds, stop, hending⟩
    rw [hending]
    refine ⟨_, rfl, ?_⟩
    rw [List.map_append, hkinds]
    rfl

/-- A source that spells a program of the language is read as a tree of this program. -/
theorem Listing.Spells.exists_program {p : Listing} {d : Dialect} {source : String}
    {globals : List String} (h : p.Spells d source) (hp : p.WellFormed globals) :
    ∃ q, Program.ofRun globals (.ofText d source) = .ok q ∧ q.bare = p := by
  obtain ⟨hkinds, stop, hending⟩ := Listing.spells_iff.mp h
  exact Program.exists_ofRun hp hkinds hending

/-- A source that is read spells the program, and that is one of the language. -/
theorem Program.spells_of_ofRun {globals : List String} {d : Dialect} {source : String} {p : Program}
    (h : Program.ofRun globals (.ofText d source) = .ok p) :
    p.bare.Spells d source ∧ p.bare.WellFormed globals :=
  ⟨Listing.spells_iff.mpr (Program.kinds_of_ofRun (TokenRun.kind_ne_eof d _) h),
    Program.wellFormed_of_ofRun h⟩

/-- What compilation gives is made of the program that was read. -/
theorem compile_eq_ok_iff {d : Dialect} {globals : List String} {source : String} {c : Compiled} :
    compile d globals source = .ok c ↔ ∃ p, Program.ofRun globals (.ofText d source) = .ok p ∧
      c = { code := p.code, globals := globals ++ p.definedNames } := by
  unfold compile
  cases Program.ofRun globals (.ofText d source) with
  | error e => exact ⟨nofun, fun ⟨_, h, _⟩ => nomatch h⟩
  | ok p =>
    constructor
    · rintro h
      cases h
      exact ⟨p, rfl, rfl⟩
    · rintro ⟨_, h, rfl⟩
      cases h
      rfl

/-- **The compiler accepts exactly its language, and emits exactly the code of the rules.** Every source
that spells a program of the language compiles, to the code of the rules but for origins; and every
source that compiles spells such a program. -/
theorem compiler_accepts_exactly_the_grammar (d : Dialect) (globals : List String) (source : String) :
    (∀ p : Listing, p.WellFormed globals → p.Spells d source →
      ∃ c, compile d globals source = .ok c ∧ c.code.map Value.erase = p.code globals ∧
        c.globals = globals ++ p.definedNames) ∧
    ∀ c, compile d globals source = .ok c →
      ∃ p : Listing, p.WellFormed globals ∧ p.Spells d source ∧
        c.code.map Value.erase = p.code globals ∧ c.globals = globals ++ p.definedNames := by
  constructor
  · intro p hp hspells
    obtain ⟨q, hread, rfl⟩ := hspells.exists_program hp
    refine ⟨_, compile_eq_ok_iff.mpr ⟨q, hread, rfl⟩, ?_, ?_⟩
    · exact Program.code_bare (Program.scoped_of_ofRun hread)
    · rw [Program.definedNames_bare]
  · intro c hc
    obtain ⟨p, hread, rfl⟩ := compile_eq_ok_iff.mp hc
    obtain ⟨hspells, hwf⟩ := Program.spells_of_ofRun hread
    refine ⟨p.bare, hwf, hspells, ?_, ?_⟩
    · exact Program.code_bare (Program.scoped_of_ofRun hread)
    · rw [Program.definedNames_bare]

/-- A program that takes `or` for a variable and `and` for the primitive, calls the empty list, and
defines a name that its last form uses. -/
theorem small_program_is_accepted :
    ∃ p : Listing, p = [
        .defineFunction "f" ["x"] [.ifElse (.binary .and (.var "x") (.literal (.boolean true)))
          (.quasi (.list [.datum (.word (.identifier "a")), .hole (.app (.var "or") [.var "x"])]))
          (.app .null [.var "x"])],
        .value (.letrec [("g", .lambda ["y"] [.app (.var "f") [.var "y"]])]
          [.app (.var "g") [.quote (.list [.word (.keyword .if_)])]])] ∧
      p.WellFormed ["or"] ∧
      ∃ c, compile {} ["or"] ("(define (f x) (if (and x #t) `(a ,(or x)) (null x))) " ++
          "(letrec ((g (lambda (y) (f y)))) (g '(if)))") = .ok c ∧
        c.code.map Value.erase = p.code ["or"] ∧ c.globals = ["or", "f"] := by
  let p : Listing := [
    .defineFunction "f" ["x"] [.ifElse (.binary .and (.var "x") (.literal (.boolean true)))
      (.quasi (.list [.datum (.word (.identifier "a")), .hole (.app (.var "or") [.var "x"])]))
      (.app .null [.var "x"])],
    .value (.letrec [("g", .lambda ["y"] [.app (.var "f") [.var "y"]])]
      [.app (.var "g") [.quote (.list [.word (.keyword .if_)])]])]
  have hand : BinaryOp.ofName? "and" = some .and := by decide
  have hp : p.WellFormed ["or"] := by
    refine ⟨List.cons_ne_nil _ _, ⟨⟨by decide, List.cons_ne_nil _ _, ?_, trivial⟩, ?_, trivial⟩, ?_⟩
    · exact ⟨⟨BinaryOp.free_of_ofName? hand (by decide), rfl, trivial⟩,
        ⟨trivial, ⟨rfl, rfl, trivial⟩, trivial⟩, trivial, rfl, trivial⟩
    · exact ⟨by decide, ⟨⟨by decide, List.cons_ne_nil _ _, ⟨rfl, rfl, trivial⟩, trivial⟩, trivial⟩,
        List.cons_ne_nil _ _, ⟨rfl, trivial, trivial⟩, trivial⟩
    · decide
  refine ⟨p, rfl, hp, (compiler_accepts_exactly_the_grammar {} ["or"] _).1 p hp ?_⟩
  -- both sides are computed: the tokens of the text, and those of the tree
  refine Listing.spells_iff.mpr ⟨?_, 96, ?_⟩
  · decide +kernel
  · decide +kernel

end LispMachine
