import LispMachine.Proofs.Renaming

/-!
# Compilation does not depend on names

A source with other names compiles, against the renamed globals, if and only if the source itself
compiles, and then the two codes differ in the symbols of quoted data and in nothing else
(`compilation_is_equivariant`).

The compiler accepts exactly the well-formed programs, and emits the code of the rules. So there is
nothing to show here about how programs are read: a renamed program is one of the language, and has the
renamed code.
-/

namespace LispMachine

/-! ## Sources and programs -/

theorem Listing.spells_of_kinds {p : Listing} {d : Dialect} {source : String} {ts : List Token}
    (h : tokenize d source = .ok ts) :
    p.Spells d source ↔ (TokenRun.ofText d source).tokens.map Token.kind = p.kinds := by
  constructor
  · exact fun hspells => (spells_iff.mp hspells).1
  · intro hkinds
    obtain ⟨stop, hends, -⟩ := exists_ending_of_tokenize h
    exact spells_iff.mpr ⟨hkinds, stop, hends⟩

/-- A source that compiles spells a program of the language, and has the code of the rules. -/
theorem exists_listing_of_compile {d : Dialect} {globals : List String} {source : String} {c : Compiled}
    (h : compile d globals source = .ok c) :
    ∃ p : Listing, p.WellFormed globals ∧ p.Spells d source ∧ c.code.map Value.erase = p.code globals ∧
      c.globals = globals ++ p.definedNames := by
  obtain ⟨q, hread, rfl⟩ := compile_eq_ok_iff.mp h
  obtain ⟨hspells, hp⟩ := Program.spells_of_ofRun hread
  exact ⟨q.bare, hp, hspells, Program.code_bare (Program.scoped_of_ofRun hread),
    congrArg (globals ++ ·) q.definedNames_bare.symm⟩

/-- A source that spells a program of the language compiles, to the code of the rules. -/
theorem Listing.Spells.exists_compile {p : Listing} {d : Dialect} {globals : List String}
    {source : String} (h : p.Spells d source) (hp : p.WellFormed globals) :
    ∃ c, compile d globals source = .ok c ∧ c.code.map Value.erase = p.code globals ∧
      c.globals = globals ++ p.definedNames := by
  obtain ⟨q, hread, rfl⟩ := h.exists_program hp
  exact ⟨_, compile_eq_ok_iff.mpr ⟨q, hread, rfl⟩, Program.code_bare (Program.scoped_of_ofRun hread),
    congrArg (globals ++ ·) q.definedNames_bare.symm⟩

/-- What a program defines is written in it. -/
theorem Listing.identifier_mem_kinds {p : Listing} {name : String} (h : name ∈ p.definedNames) :
    .identifier name ∈ p.kinds := by
  obtain ⟨form, hform, hname⟩ := List.mem_filterMap.mp h
  refine List.mem_flatMap.mpr ⟨form, hform, ?_⟩
  cases form with
  | value t => cases hname
  | defineVariable name t =>
    cases hname
    simp [TopTerm.kinds, inParens]
  | defineFunction name params body =>
    cases hname
    simp [TopTerm.kinds, nameKinds, inParens]

/-! ## Renamed sources -/

section
variable (ρ : Renaming) {d d' : Dialect} {globals : List String} {source source' : String}
  {ts ts' : List Token}

/-- The tokens of a renamed source are renamed by the function on all names as well. -/
theorem Renaming.kinds_eq (h : tokenize d source = .ok ts) (h' : tokenize d' source' = .ok ts')
    (hkinds : ts'.map Token.kind = ts.map fun t => t.kind.rename ρ.map) :
    (TokenRun.ofText d' source').tokens.map Token.kind =
      ((TokenRun.ofText d source).tokens.map Token.kind).map (·.rename ρ.apply) := by
  obtain ⟨-, -, htokens⟩ := exists_ending_of_tokenize h
  obtain ⟨-, -, htokens'⟩ := exists_ending_of_tokenize h'
  have hmap : ts'.map Token.kind = (ts.map Token.kind).map (·.rename ρ.map) := by
    rw [hkinds, List.map_map]
    rfl
  have happend : (TokenRun.ofText d' source').tokens.map Token.kind ++ [.eof] =
      ((TokenRun.ofText d source).tokens.map Token.kind).map (·.rename ρ.map) ++ [.eof] := by
    rw [← htokens', hmap, htokens, List.map_append]
    rfl
  rw [List.append_cancel_right happend, List.map_map, List.map_map]
  refine List.map_congr_left fun t ht => ?_
  show t.kind.rename ρ.map = t.kind.rename ρ.apply
  cases hkind : t.kind with
  | identifier name =>
    exact congrArg TokenKind.identifier (ρ.apply_of_isIdentifier ⟨d, source, t, ht, hkind⟩).symm
  | _ => rfl

/-- **Compilation is equivariant under renaming of identifiers.** Of two sources of which the second has
the tokens of the first with other names, both compile or none does, against globals that are renamed as
well; and the code of the second is that of the first, with the symbols of its quoted data renamed. -/
theorem compilation_is_equivariant (hglobals : ∀ name ∈ globals, IsIdentifier name)
    (h : tokenize d source = .ok ts) (h' : tokenize d' source' = .ok ts')
    (hkinds : ts'.map Token.kind = ts.map fun t => t.kind.rename ρ.map) :
    (∀ c, compile d globals source = .ok c → ∃ c', compile d' (globals.map ρ.map) source' = .ok c' ∧
      c'.code.map Value.erase = (c.code.map Value.erase).map (Value.rename ρ.apply) ∧
      c'.globals = c.globals.map ρ.map) ∧
    ∀ c', compile d' (globals.map ρ.map) source' = .ok c' → ∃ c, compile d globals source = .ok c := by
  have htokens := ρ.kinds_eq h h' hkinds
  rw [← ρ.map_apply hglobals]
  constructor
  · intro c hc
    obtain ⟨p, hp, hspells, hcode, hnames⟩ := exists_listing_of_compile hc
    have hpkinds := (Listing.spells_of_kinds h).mp hspells
    have hspells' : (p.rename ρ.apply).Spells d' source' := by
      rw [Listing.spells_of_kinds h', htokens, hpkinds, Listing.kinds_rename ρ.faithful]
    obtain ⟨c', hc', hcode', hnames'⟩ :=
      hspells'.exists_compile ((p.wellFormed_rename ρ.faithful globals).mpr hp)
    have hidentifiers : ∀ name ∈ c.globals, IsIdentifier name := by
      intro name hname
      rw [hnames] at hname
      rcases List.mem_append.mp hname with hold | hnew
      · exact hglobals name hold
      · have hmem := Listing.identifier_mem_kinds hnew
        rw [← hpkinds] at hmem
        obtain ⟨t, ht, hkind⟩ := List.mem_map.mp hmem
        exact ⟨d, source, t, ht, hkind⟩
    refine ⟨c', hc', ?_, ?_⟩
    · rw [hcode', hcode, p.code_rename ρ.faithful]
    · rw [← ρ.map_apply hidentifiers, hnames', hnames, p.definedNames_rename, List.map_append]
  · intro c' hc'
    obtain ⟨p', hp', hspells', -⟩ := exists_listing_of_compile hc'
    have hpkinds' := (Listing.spells_of_kinds h').mp hspells'
    have hrenamed : Renamed ρ.apply p'.kinds := by
      intro name hname
      rw [← hpkinds', htokens] at hname
      obtain ⟨kind, -, hkind⟩ := List.mem_map.mp hname
      exact TokenKind.exists_of_rename hkind
    obtain ⟨p, rfl⟩ := p'.exists_rename hrenamed
    have hspells : p.Spells d source := by
      rw [Listing.spells_of_kinds h]
      apply List.map_injective_iff.mpr (TokenKind.rename_injective ρ.apply_injective)
      rw [← p.kinds_rename ρ.faithful, ← hpkinds', htokens]
    obtain ⟨c, hc, -⟩ := hspells.exists_compile ((p.wellFormed_rename ρ.faithful globals).mp hp')
    exact ⟨c, hc⟩

end

theorem isIdentifier_x : IsIdentifier "x" := ⟨{}, "x", ⟨.identifier "x", 0, 1⟩, by decide +kernel, rfl⟩

theorem isIdentifier_y : IsIdentifier "y" := ⟨{}, "y", ⟨.identifier "y", 0, 1⟩, by decide +kernel, rfl⟩

/-- Two sources that have the names `x` and `y` the other way round, and a different layout. -/
theorem swapped_names_compile :
    let ρ := Renaming.swap isIdentifier_x isIdentifier_y (by decide)
    ∃ c c', compile {} ["x"] "(define (y z) `(x ,(+ x z) if)) (y 2)" = .ok c ∧
      compile { comments := false } ["y"] "(define (x z)\n  `(y ,(+ y z) if))\n(x 2)" = .ok c' ∧
      c'.code.map Value.erase = (c.code.map Value.erase).map (Value.rename ρ.apply) ∧
      c'.globals = c.globals.map ρ.map := by
  intro ρ
  have hcompiles : (compile {} ["x"] "(define (y z) `(x ,(+ x z) if)) (y 2)").isOk := by decide +kernel
  obtain ⟨c, hc⟩ := Except.exists_of_isOk hcompiles
  have hx : ∀ name ∈ ["x"], IsIdentifier name := List.forall_mem_singleton.mpr isIdentifier_x
  have htokens : tokenize {} "(define (y z) `(x ,(+ x z) if)) (y 2)" =
      .ok ((TokenRun.ofText {} "(define (y z) `(x ,(+ x z) if)) (y 2)").tokens ++ [.ending 37]) := by
    decide +kernel
  have htokens' : tokenize { comments := false } "(define (x z)\n  `(y ,(+ y z) if))\n(x 2)" =
      .ok ((TokenRun.ofText { comments := false } "(define (x z)\n  `(y ,(+ y z) if))\n(x 2)").tokens ++
        [.ending 39]) := by
    decide +kernel
  obtain ⟨c', hc', hcode, hglobals⟩ :=
    (compilation_is_equivariant ρ hx htokens htokens' (by decide +kernel)).1 c hc
  exact ⟨c, c', hc, hc', hcode, hglobals⟩

end LispMachine
