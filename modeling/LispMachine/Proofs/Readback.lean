import LispMachine.Proofs.Display
import LispMachine.Proofs.Mirror

/-!
# Reading undoes printing

Data that can be written down are read back as they were, when their text stands behind a quotation mark:
their text is cut into the tokens of a datum (`Value.Readable.exists_datum`), and the reader gives what is
written. It goes one level deep for the mark, and so the data may take all levels but one.

With more levels the reader has to refuse, and for no other reason than their number. A reader that may go
less deep gives what a reader gives that may go deeper, or it finds the data nested too deeply
(`Truncates`). So it cannot refuse for another reason what is read by a reader that may go deep enough, and
it cannot give what is too deep for it.
-/

namespace LispMachine

open Read

/-! ## Levels only cut off -/

/-- One reader gives what the other gives, unless it finds something nested too deeply. -/
def Truncates {α : Type} (r r' : Read α) : Prop :=
  ∀ f, r f = r' f ∨ ∃ offset, r f = .error (.malformed offset .tooDeeplyNested)

namespace Truncates
variable {α β σ : Type}

theorem refl (r : Read α) : Truncates r r := fun _ => .inl rfl

theorem bind {x x' : Read α} {g g' : α → Read β} (hx : Truncates x x') (hg : ∀ a, Truncates (g a) (g' a)) :
    Truncates (x >>= g) (x' >>= g') := by
  intro f
  obtain hsame | ⟨offset, hdeep⟩ := hx f
  · cases hread : x' f with
    | error e =>
      rw [hread] at hsame
      rw [bind_of_error hsame, bind_of_error hread]
      exact .inl rfl
    | ok p =>
      rw [hread] at hsame
      rw [bind_of_ok hsame, bind_of_ok hread]
      exact hg p.1 p.2
  · exact .inr ⟨offset, bind_of_error hdeep⟩

theorem collect {step step' : σ → Read (Option (α × σ))} (hstep : ∀ s, Truncates (step s) (step' s))
    (s : σ) : Truncates (collect step s) (collect step' s) := by
  have hfor : ∀ fuel s, Truncates (collectFor step fuel s) (collectFor step' fuel s) := by
    intro fuel
    -- both loops try equally often, as they start from the same feed
    induction fuel with
    | zero => exact fun s => refl _
    | succ fuel ih =>
      refine fun s => (hstep s).bind fun r => ?_
      cases r with
      | none => exact refl _
      | some item => exact (ih item.2).bind fun as => refl _
  exact (refl _).bind fun f => hfor _ s

theorem untilClose {item item' : Nat → Read α} (hitem : ∀ blame, Truncates (item blame) (item' blame)) :
    Truncates (untilClose item) (untilClose item') := by
  refine (collect (fun _ => (refl peek).bind fun t => ?_) ()).bind fun as => refl _
  split
  · exact refl _
  · exact (hitem t.span.start).bind fun a => refl _

end Truncates

theorem readDatum_truncates {inner inner' : Readers}
    (hinner : ∀ blame, Truncates (inner.datum blame) (inner'.datum blame)) :
    Truncates (readDatum inner) (readDatum inner') := by
  have hmark : ∀ mark : Mark, Truncates (do return Datum.marked mark (← inner.datum (← position)))
      (do return Datum.marked mark (← inner'.datum (← position))) :=
    fun mark => (Truncates.refl position).bind fun blame => (hinner blame).bind fun d => .refl _
  refine (Truncates.refl next).bind fun t => ?_
  cases t.kind with
  | leftParen => exact (Truncates.untilClose hinner).bind fun r => .refl _
  | quote => exact hmark .quote
  | backquote => exact hmark .quasiquote
  | comma => exact hmark .unquote
  | _ => exact .refl _

/-- Data that are read with few levels are read in the same way with more. -/
theorem readers_datum_truncate (level more blame : Nat) :
    Truncates ((readers level).datum blame) ((readers (level + more)).datum blame) := by
  induction level generalizing blame with
  | zero => exact fun f => .inr ⟨blame, rfl⟩
  | succ level ih =>
    rw [Nat.succ_add]
    exact readDatum_truncates ih

/-- **Data that are too deep for the reader are refused as such.** -/
theorem datum_tooDeeplyNested {level : Nat} {datum : Datum} (hdeep : level < datum.nesting) (blame : Nat)
    {f : Feed} {used rest : List Token} (hf : f.tokens = used ++ rest)
    (hused : used.map Token.kind = datum.kinds) :
    ∃ offset, (readers level).datum blame f = .error (.malformed offset .tooDeeplyNested) := by
  obtain ⟨more, hmore⟩ := Nat.exists_eq_add_of_lt hdeep
  have hgives : Gives ((readers (level + (more + 1))).datum blame) datum.kinds (· = datum) :=
    (readers_complete _).datum blame (by omega)
  obtain ⟨_, f', hread, -, -, rfl⟩ := hgives f used rest hf hused
  obtain hsame | htoo := readers_datum_truncate level (more + 1) blame f
  -- it cannot give the datum, as what it gives is never deeper than its levels
  · rw [hread] at hsame
    exact absurd ((readers_strict level).datum blame f _ f' hsame) (Nat.not_le_of_gt hdeep)
  · exact htoo

/-! ## Quotations as programs -/

/-- A program that starts with a quotation mark is refused for what is found behind the mark. -/
theorem Program.ofRun_quote_error {globals : List String} {r : TokenRun} {t : Token} {rest : List Token}
    {e : Fault} (htokens : r.tokens = t :: rest) (ht : t.kind = .quote)
    (hdatum : (readers (maxNesting - 1)).datum t.span.stop ⟨rest, r.ending, t.span.stop⟩ = .error e) :
    Program.ofRun globals r = .error e := by
  have hpeek : peek (.ofRun r) = .ok (t, .ofRun r) := by
    unfold peek Feed.ofRun
    rw [htokens]
  have hnext : next (.ofRun r) = .ok (t, ⟨rest, r.ending, t.span.stop⟩) := next_cons htokens
  have hform : readForm (readers (maxNesting - 1)) { globals } (.ofRun r) = .error e := by
    unfold readForm
    rw [bind_of_ok hnext]
    simp only [ht]
    have hposition : position ⟨rest, r.ending, t.span.stop⟩ = .ok (t.span.stop, _) := rfl
    rw [bind_of_ok hposition]
    exact bind_of_error hdatum
  have hvalue : ¬ startsDefinition ((Feed.ofRun r).tokens.map Token.kind) := by
    rw [Feed.ofRun, htokens, List.map_cons, ht]
    exact Bool.false_ne_true
  refine Program.ofRun_of_error ?_
  unfold tryTopForm
  rw [bind_of_ok hpeek]
  simp only [ht]
  refine bind_of_error ?_
  rw [readTopForm_value hvalue, bind_of_ok hpeek, bind_of_error hform]

/-- A program that is one quotation has one form, and its code is one constant. -/
theorem Program.code_quote {p : Program} {datum : Datum} (h : p.bare = [.value (.quote datum)]) :
    ∃ span, p.code = Code.constant span datum.value ∧ p.definedNames = [] := by
  obtain ⟨form, rest, rfl, hform, hrest⟩ := List.map_eq_cons_iff.mp h
  cases List.map_eq_nil_iff.mp hrest
  cases form with
  | value span e =>
    cases e with
    | quote span' datum' =>
      cases hform
      exact ⟨span', rfl, rfl⟩
    | _ => cases hform
  | defineVariable | defineFunction => cases hform

/-- A constant is the result of its code. -/
theorem Machine.run_constant (span : Span) (v : Value) (env : Environment) (store : Store) {limit : Nat}
    (hlimit : 1 ≤ limit) :
    ((Machine.start (Code.constant span v) env store).runWithLimit limit).1 = .ok (some v) := by
  obtain ⟨rest, rfl⟩ := Nat.exists_eq_add_of_le' hlimit
  have hnext : (Machine.start (Code.constant span v) env store).next =
      .ok (some ⟨.ldc, some span, ⟨[v], env, [], []⟩, .keep⟩) := rfl
  rw [runWithLimit, runFor_succ _ hnext rest, runFor_of_isHalted _ rfl rest]
  rfl

/-! ## Printing and reading -/

/-- The text of data behind a quotation mark spells the quotation. -/
theorem Lexes.ofText {d : Dialect} {source : String} {kinds : List TokenKind}
    (h : Lexes d kinds source.toList []) :
    (TokenRun.ofText d source).tokens.map Token.kind = kinds ∧
      ∃ stop, (TokenRun.ofText d source).ending = .eof stop := by
  obtain ⟨tokens, rfl, hread⟩ := h 0
  rw [List.append_nil, TokenRun.ofCursor_nil] at hread
  unfold TokenRun.ofText Cursor.ofText
  rw [hread]
  exact ⟨congrArg _ (List.append_nil tokens), _, rfl⟩

/-- **Reading undoes printing.** Data that can be written down and that are shown behind a quotation mark
compile to a load of just these data, in each dialect and after any global names, unless they have as many
levels as a source may have in all: then they are too deep with the mark. -/
theorem reading_undoes_printing (d : Dialect) (globals : List String) (v : Value) (hv : v.Readable) :
    (v.levels ≤ maxNesting - 1 →
      ∃ span, compile d globals ("'" ++ v.text) = .ok { code := [instr .ldc span, v], globals } ∧
        ∀ env store limit, 1 ≤ limit → ∃ w,
          ((Machine.start [instr .ldc span, v] env store).runWithLimit limit).1 = .ok (some w) ∧ w == v) ∧
    (maxNesting - 1 < v.levels →
      ∃ e, compile d globals ("'" ++ v.text) = .error (.malformed e) ∧ e.kind = .tooDeeplyNested) := by
  obtain ⟨datum, rfl, hnesting, hlexes⟩ := hv.exists_datum
  have hmark : Lexes d [.quote] ['\x27'] (datum.value.text.toList ++ []) :=
    (TokenKind.Spelled.mark (by decide) _).lexes
  have hsource : Lexes d (.quote :: datum.kinds) ("'" ++ datum.value.text).toList [] := by
    rw [String.toList_append]
    exact hmark.append (hlexes d [] delimits_nil)
  obtain ⟨hkinds, stop, hending⟩ := hsource.ofText
  rw [← hnesting]
  constructor
  · intro hle
    let p : Listing := [.value (.quote datum)]
    have hp : p.WellFormed globals := by
      refine ⟨List.cons_ne_nil _ _, ⟨trivial, trivial⟩, List.forall_mem_singleton.mpr ?_⟩
      show datum.nesting + 1 ≤ maxNesting
      exact Nat.add_le_of_le_sub (by decide) hle
    have hpkinds : p.kinds = .quote :: datum.kinds := List.append_nil _
    obtain ⟨q, hq, hbare⟩ := Program.exists_ofRun hp (hkinds.trans hpkinds.symm) hending
    obtain ⟨span, hcode, hnames⟩ := Program.code_quote hbare
    refine ⟨span, compile_eq_ok_iff.mpr ⟨q, hq, ?_⟩, fun env store limit hlimit => ?_⟩
    · rw [hcode, hnames, List.append_nil]
      rfl
    · exact ⟨datum.value, Machine.run_constant span datum.value env store hlimit,
        (Value.same_iff _ _).mpr rfl⟩
  · intro hdeep
    obtain ⟨t, rest, htokens, ht, hrest⟩ := List.map_eq_cons_iff.mp hkinds
    let behind : Feed := ⟨rest, (TokenRun.ofText d ("'" ++ datum.value.text)).ending, t.span.stop⟩
    have hbehind : behind.tokens = rest ++ [] := (List.append_nil rest).symm
    obtain ⟨offset, hdatum⟩ := datum_tooDeeplyNested hdeep t.span.stop hbehind hrest
    have hprogram : Program.ofRun globals (.ofText d ("'" ++ datum.value.text)) =
        .error (.malformed offset .tooDeeplyNested) := Program.ofRun_quote_error htokens ht hdatum
    have hcompile : compile d globals ("'" ++ datum.value.text) =
        .error ((Fault.malformed offset .tooDeeplyNested).toError ("'" ++ datum.value.text)) := by
      unfold compile
      rw [hprogram]
    exact ⟨_, hcompile, rfl⟩

/-- A list with a keyword, an operator, a name, the empty list and a string that looks like code; and a name
in so many lists that it could be read without the quotation mark only. -/
theorem quoted_lists_read_back :
    let v : Value := .list [.symbol "define", .list [.symbol "f-1?", .symbol "<=", .number 0], .list [],
      .string ") ; ('"]
    let deep : Value := Nat.repeat (fun v => .list [v]) 63 (.symbol "a")
    v.Readable ∧ v.levels = 3 ∧ v.text = "(define (f-1? <= 0) () \") ; ('\")" ∧
      (∃ span, compile {} ["define"] ("'" ++ v.text) =
        .ok { code := [instr .ldc span, v], globals := ["define"] }) ∧
      deep.Readable ∧ deep.levels = 64 ∧
      ∃ e, compile {} [] ("'" ++ deep.text) = .error (.malformed e) ∧ e.kind = .tooDeeplyNested := by
  intro v deep
  have hword : ∀ (w : Word) (width : Nat),
      tokenize {} w.name = .ok [⟨w.kind, ⟨0, width⟩⟩, .ending width] → (Value.symbol w.name).Readable :=
    fun w width htokens => ⟨w, rfl, _, _, htokens⟩
  have hv : v.Readable := by
    refine ⟨hword (.keyword .define) 6 (by decide +kernel), ⟨?_, ?_, ?_, trivial⟩, trivial, ?_, trivial⟩
    · exact hword (.identifier "f-1?") 4 (by decide +kernel)
    · exact hword (.operator .le) 2 (by decide +kernel)
    · show 0 ≤ (0 : Number).toInt
      decide
    · show '\x22' ∉ ") ; ('".toList
      decide
  have hdeep : ∀ n, (Nat.repeat (fun v => Value.list [v]) n (.symbol "a")).Readable ∧
      (Nat.repeat (fun v => Value.list [v]) n (.symbol "a")).levels = n + 1 := by
    intro n
    induction n with
    | zero => exact ⟨hword (.identifier "a") 1 (by decide +kernel), rfl⟩
    | succ n ih => exact ⟨⟨ih.1, trivial⟩, congrArg (max · 0 + 1) ih.2⟩
  obtain ⟨hreadable, hlevels⟩ := hdeep 63
  obtain ⟨span, hcompile, -⟩ := (reading_undoes_printing {} ["define"] v hv).1 (by decide)
  have hrefused := (reading_undoes_printing {} [] deep hreadable).2
  have htoo : maxNesting - 1 < deep.levels := by
    rw [hlevels]
    decide
  exact ⟨hv, rfl, by decide +kernel, ⟨span, hcompile⟩, hreadable, hlevels, hrefused htoo⟩

end LispMachine
