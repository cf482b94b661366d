import LispMachine.Proofs.Bare
import LispMachine.Proofs.Reading

/-!
# What is read belongs to the language

A tree that the reader gives is, without its spans and addresses, a well-formed term of the scope that
it was read in, and nested no deeper than the reader may go (`readForm_leaves`). Together with the
tokens that were taken (`LispMachine.Proofs.Reading`) this says that nothing else is accepted.

`Leaves` says what a reader gives whenever it gives something; it composes along the moves of readers. A
move that fails leaves nothing, so the branches in which a reader refuses its input are closed by
`Leaves.fail` and need no thought. Two facts need the tokens as well: which data a template may hold, and
that the names which a `letrec` finds by reading ahead are those it binds.

The bound on the frames of the scope goes along with the levels: each frame that a reader enters uses up
one level of the readers below it, so that `Readers.Strict` can promise its forms to be well-formed at any
level.
-/

namespace LispMachine

open Read

/-- Whatever a reader gives is good. -/
def Leaves {α : Type} (r : Read α) (Good : α → Prop) : Prop :=
  ∀ f a f', r f = .ok (a, f') → Good a

namespace Leaves
variable {α β σ : Type} {Good : α → Prop} {Fine : β → Prop}

theorem any (r : Read α) : Leaves r (fun _ => True) := fun _ _ _ _ => trivial

theorem pure {a : α} (h : Good a) : Leaves (pure a) Good := by
  intro f b f' hread
  cases hread
  exact h

theorem fail (offset : Nat) (c : Complaint) : Leaves (fail offset c) Good := nofun

theorem unexpected (t : Token) (expected : Expectation) : Leaves (unexpected t expected) Good := nofun

theorem bind {x : Read α} {g : α → Read β} (hx : Leaves x Good)
    (hg : ∀ a, Good a → Leaves (g a) Fine) : Leaves (x >>= g) Fine := by
  intro f b f' hread
  obtain ⟨a, f₁, hread, hrest⟩ := bind_eq_ok hread
  exact hg a (hx f a f₁ hread) f₁ b f' hrest

/-- A move whose result does not matter. -/
theorem after {x : Read α} {g : α → Read β} (hg : ∀ a, Leaves (g a) Fine) : Leaves (x >>= g) Fine :=
  (any x).bind fun a _ => hg a

/-- What holds of no items and of one more item than it holds of holds of all that are collected. -/
theorem collect (step : σ → Read (Option (α × σ))) (Held : σ → List α → Prop)
    (hnil : ∀ s, Held s [])
    (hstep : ∀ s, Leaves (step s) fun r => ∀ a s', r = some (a, s') →
      ∀ as, Held s' as → Held s (a :: as)) (s : σ) : Leaves (collect step s) (Held s) := by
  -- by induction on the rounds; that there are enough of them is of no matter to what is collected
  have hfor : ∀ fuel s, Leaves (collectFor step fuel s) (Held s) := by
    intro fuel
    induction fuel with
    | zero => exact fun s => .pure (hnil s)
    | succ fuel ih =>
      intro s
      refine (hstep s).bind fun r hr => ?_
      cases r with
      | none => exact .pure (hnil s)
      | some item => exact (ih item.2).bind fun as has => .pure (hr item.1 item.2 rfl as has)
  exact .after fun f => hfor _ s

theorem untilClose {item : Nat → Read α} (hitem : ∀ blame, Leaves (item blame) Good) :
    Leaves (untilClose item) (fun r => ∀ a ∈ r.1, Good a) := by
  have hitems := collect (fun _ => do
      let t ← peek
      if t.kind = .rightParen then return none
      return some (← item t.span.start, ())) (fun _ as => ∀ a ∈ as, Good a)
    (fun _ => List.forall_mem_nil _) (fun _ => ?_) ()
  · exact hitems.bind fun as has => .after fun _ => .pure has
  -- one more item behind those that are good already
  · refine .after fun t => ?_
    split
    · exact .pure nofun
    · refine (hitem _).bind fun a ha => .pure fun a' s' hsome as has => ?_
      cases hsome
      exact List.forall_mem_cons.mpr ⟨ha, has⟩

end Leaves

/-! ## Data and templates -/

/-- What the readers of one level keep to: what is given is well-formed in its scope, and nested no
deeper than the level. -/
structure Readers.Strict (inner : Readers) (level : Nat) : Prop where
  form : ∀ blame {scope : Scope}, scope.locals.length + level ≤ maxNesting →
    Leaves (inner.form blame scope) fun e => e.bare.WellFormed scope ∧ e.bare.nesting ≤ level
  datum : ∀ blame, Leaves (inner.datum blame) fun d => d.nesting ≤ level
  template : ∀ blame {scope : Scope}, scope.locals.length + level ≤ maxNesting →
    Leaves (inner.template blame scope) fun t => t.bare.WellFormed scope ∧ t.bare.nesting ≤ level

section
variable {inner : Readers} {level : Nat} {scope : Scope}

theorem readDatum_leaves (hinner : inner.Strict level) :
    Leaves (readDatum inner) fun d => d.nesting ≤ level + 1 := by
  have hmark : ∀ mark : Mark, Leaves (do return Datum.marked mark (← inner.datum (← position)))
      fun d => d.nesting ≤ level + 1 := by
    intro mark
    refine .after fun blame => (hinner.datum blame).bind fun d hd => .pure ?_
    exact Nat.succ_le_succ hd
  refine .after fun t => ?_
  cases hkind : t.kind with
  | leftParen =>
    refine (Leaves.untilClose hinner.datum).bind fun r hr => .pure ?_
    exact Nat.succ_le_succ (dataNesting_le.mpr hr)
  | quote => exact hmark .quote
  | backquote => exact hmark .quasiquote
  | comma => exact hmark .unquote
  | rightParen | eof => exact .unexpected _ _
  | _ => exact .pure (Nat.succ_le_succ (Nat.zero_le level))

/-- The first token that is taken is the next one. -/
theorem Takes.kind_eq {f f₁ f' : Feed} {k : TokenKind} {kinds : List TokenKind} {t : Token}
    (h : Takes f (k :: kinds) f') (hnext : next f = .ok (t, f₁)) : t.kind = k := by
  obtain ⟨used, hf, hused⟩ := h.tokens
  obtain ⟨t', tail, rfl, ht', -⟩ := List.map_eq_cons_iff.mp hused
  rw [next_cons hf] at hnext
  cases hnext
  exact ht'

/-- A datum that starts with none of the tokens that templates treat in their own way. -/
theorem Datum.plain_of_takes {f f₁ f' : Feed} {d : Datum} {t : Token} (h : Takes f d.kinds f')
    (hnext : next f = .ok (t, f₁)) (hcomma : t.kind ≠ .comma) (hback : t.kind ≠ .backquote)
    (hleft : t.kind ≠ .leftParen) : d.Plain := by
  cases d with
  | literal | word => trivial
  | list items => exact absurd (h.kind_eq hnext) hleft
  | marked mark d =>
    cases mark with
    | quote => trivial
    | quasiquote => exact absurd (h.kind_eq hnext) hback
    | unquote => exact absurd (h.kind_eq hnext) hcomma

theorem readTemplate_leaves (hinner : inner.Strict level) (hsound : inner.Sound level)
    (hle : scope.locals.length + level ≤ maxNesting) :
    Leaves (readTemplate inner scope) fun t =>
      t.bare.WellFormed scope ∧ t.bare.nesting ≤ level + 1 := by
  intro f t f' h
  obtain ⟨token, f₁, hpeek, hrest⟩ := bind_eq_ok h
  obtain ⟨rfl, f₂, hnext⟩ := peek_eq_ok hpeek
  have hhole : Leaves (do
      let _ ← next
      return Template.hole (← inner.form (← position) scope))
      fun t => t.bare.WellFormed scope ∧ t.bare.nesting ≤ level + 1 := by
    refine .after fun _ => .after fun blame => (hinner.form blame hle).bind fun e he => .pure ?_
    exact ⟨he.1, Nat.succ_le_succ he.2⟩
  have hlist : Leaves (do
      let _ ← next
      let r ← untilClose (inner.template · scope)
      return Template.list ⟨token.span, r.2⟩ r.1)
      fun t => t.bare.WellFormed scope ∧ t.bare.nesting ≤ level + 1 := by
    refine .after fun _ => (Leaves.untilClose fun blame => hinner.template blame hle).bind fun r hr => ?_
    refine .pure ?_
    rw [Template.bare, bareItems_eq_map]
    refine ⟨wellFormedItems_iff.mpr ?_, Nat.succ_le_succ (itemsNesting_le.mpr ?_)⟩
    · rw [List.forall_mem_map]
      exact fun t ht => (hr t ht).1
    · rw [List.forall_mem_map]
      exact fun t ht => (hr t ht).2
  -- whether the datum may stand in a template depends on its first token, so it does not compose as
  -- `Leaves` does, and the tokens that were taken have to be looked at
  have hdatum : token.kind ≠ .comma → token.kind ≠ .backquote → token.kind ≠ .leftParen →
      (do return Template.datum (← inner.datum token.span.start) : Read Template) f₁ = .ok (t, f') →
      t.bare.WellFormed scope ∧ t.bare.nesting ≤ level + 1 := by
    intro hcomma hback hleft hread
    obtain ⟨d, f₃, hdatum, hpure⟩ := bind_eq_ok hread
    cases hpure
    refine ⟨?_, Nat.succ_le_succ (hinner.datum _ _ _ _ hdatum)⟩
    exact Datum.plain_of_takes (hsound.datum hdatum) hnext hcomma hback hleft
  cases hkind : token.kind with
  | comma =>
    simp only [hkind] at hrest
    exact hhole f₁ t f' hrest
  | backquote =>
    simp only [hkind] at hrest
    cases hrest
  | leftParen =>
    simp only [hkind] at hrest
    exact hlist f₁ t f' hrest
  | _ =>
    simp only [hkind] at hrest
    rw [hkind] at hdatum
    exact hdatum (by simp) (by simp) (by simp) hrest

/-! ## The parts of forms -/

theorem readOperands_leaves (hinner : inner.Strict level)
    (hle : scope.locals.length + level ≤ maxNesting) :
    Leaves (readOperands inner scope) fun r =>
      WellFormedAll scope (bareAll r.1) ∧ termsNesting (bareAll r.1) ≤ level := by
  intro f r f' h
  have hall := Leaves.untilClose (fun blame => hinner.form blame hle) f r f' h
  rw [bareAll_eq_map, wellFormedAll_iff, termsNesting_le, List.forall_mem_map, List.forall_mem_map]
  exact ⟨fun e he => (hall e he).1, fun e he => (hall e he).2⟩

theorem readBody_leaves (hinner : inner.Strict level) (hle : scope.locals.length + level ≤ maxNesting)
    (opening : Span) (form : Keyword) :
    Leaves (readBody inner scope opening form) fun r =>
      bareAll r.1 ≠ [] ∧ WellFormedAll scope (bareAll r.1) ∧ termsNesting (bareAll r.1) ≤ level := by
  refine (readOperands_leaves hinner hle).bind fun r hr => ?_
  simp only
  split
  next => exact nofun
  next hne =>
    refine .pure ⟨fun hnil => hne ?_, hr⟩
    rw [bareAll_eq_map, List.map_eq_nil_iff] at hnil
    exact List.isEmpty_iff.mpr hnil

theorem readParameters_leaves : Leaves readParameters List.Nodup := by
  intro f names f' h
  refine (Leaves.collect _ (fun seen names => names.Nodup ∧ ∀ name ∈ names, name ∉ seen)
    (fun _ => ⟨List.nodup_nil, List.forall_mem_nil _⟩) (fun seen => ?_) [] f names f' h).1
  -- a name is new to those before it, and those behind it are new to it
  refine .after fun t => ?_
  split
  next => exact .pure nofun
  next name _ =>
    split
    next => exact nofun
    next hnew =>
      refine .pure fun name' seen' hsome names hheld => ?_
      cases hsome
      obtain ⟨hnodup, hunseen⟩ := hheld
      refine ⟨List.nodup_cons.mpr ⟨fun hmem => hunseen _ hmem List.mem_cons_self, hnodup⟩, ?_⟩
      refine List.forall_mem_cons.mpr ⟨hnew, fun n hn hseen => ?_⟩
      exact hunseen n hn (List.mem_cons_of_mem _ hseen)
  next => exact .unexpected _ _

theorem readBinding_leaves (hinner : inner.Strict level)
    (hle : scope.locals.length + level ≤ maxNesting) (form : Keyword) (seen : List String) :
    Leaves (readBinding inner scope form seen) fun b =>
      b.1 ∉ seen ∧ b.2.bare.WellFormed scope ∧ b.2.bare.nesting ≤ level := by
  refine .after fun p => ?_
  simp only
  split
  next => exact nofun
  next hnew =>
    refine .after fun blame => (hinner.form blame hle).bind fun e he => .after fun _ => ?_
    exact .pure ⟨hnew, he⟩

theorem readBindings_leaves (hinner : inner.Strict level)
    (hle : scope.locals.length + level ≤ maxNesting) (form : Keyword) :
    Leaves (readBindings inner scope form) fun bindings =>
      ((bareInits bindings).map (·.1)).Nodup ∧ WellFormedInits scope (bareInits bindings) ∧
        initsNesting (bareInits bindings) ≤ level := by
  refine .after fun _ => ?_
  intro f bindings f' h
  have hbindings := Leaves.collect _
    (fun seen bindings => ((bindings.map (·.1)).Nodup ∧ ∀ b ∈ bindings, b.1 ∉ seen) ∧
      ∀ b ∈ bindings, b.2.bare.WellFormed scope ∧ b.2.bare.nesting ≤ level)
    (fun _ => ⟨⟨List.nodup_nil, List.forall_mem_nil _⟩, List.forall_mem_nil _⟩) (fun seen => ?_) []
    f bindings f' h
  · obtain ⟨⟨hnodup, -⟩, hinits⟩ := hbindings
    rw [map_fst_bareInits, bareInits_eq_map, wellFormedInits_iff, initsNesting_le,
      List.forall_mem_map, List.forall_mem_map]
    exact ⟨hnodup, fun b hb => (hinits b hb).1, fun b hb => (hinits b hb).2⟩
  · refine .after fun t => ?_
    split
    next => exact .pure nofun
    next =>
      refine (readBinding_leaves hinner hle form seen).bind fun b hb => .pure ?_
      rintro b' seen' hsome bindings ⟨⟨hnodup, hunseen⟩, hinits⟩
      cases hsome
      -- again each name is new to those before it, and so no two are the same
      refine ⟨⟨?_, ?_⟩, List.forall_mem_cons.mpr ⟨hb.2, hinits⟩⟩
      · refine List.nodup_cons.mpr ⟨fun hmem => ?_, hnodup⟩
        obtain ⟨other, hother, hname⟩ := List.mem_map.mp hmem
        exact hunseen other hother (by rw [hname]; exact List.mem_cons_self)
      · refine List.forall_mem_cons.mpr ⟨hb.1, fun other hother hseen => ?_⟩
        exact hunseen other hother (List.mem_cons_of_mem _ hseen)
    next => exact .unexpected _ _

/-! ## Forms in parentheses -/

/-- A primitive that has no name for variables is free in every scope. -/
theorem BinaryOp.free_of_token {op : BinaryOp} (h : ∀ name, op.token ≠ .identifier name) :
    op.Free scope :=
  fun name hname => absurd (BinaryOp.token_of_ofName? hname) (h name)

theorem BinaryOp.free_of_ofName? {op : BinaryOp} {name : String} (h : BinaryOp.ofName? name = some op)
    (hfree : scope.resolve name = none) : op.Free scope := by
  intro name' hname'
  have hsame := (BinaryOp.token_of_ofName? hname').symm.trans (BinaryOp.token_of_ofName? h)
  cases hsame
  exact hfree

section
variable (hinner : inner.Strict level) (hle : scope.locals.length + (level + 1) ≤ maxNesting)
include hinner hle

theorem readUnary_leaves (opening : Span) (op : UnaryOp) :
    Leaves (readUnary inner scope opening op) fun e =>
      e.bare.WellFormed scope ∧ e.bare.nesting ≤ level + 1 := by
  refine (readOperands_leaves hinner (by omega)).bind fun r hr => ?_
  split
  next operand closing =>
    simp only [bareAll, termsNesting, Nat.max_le] at hr
    exact .pure ⟨hr.1.1, Nat.succ_le_succ hr.2.1⟩
  next => exact .fail _ _

theorem readBinary_leaves (opening : Span) {op : BinaryOp} (hfree : op.Free scope) :
    Leaves (readBinary inner scope opening op) fun e =>
      e.bare.WellFormed scope ∧ e.bare.nesting ≤ level + 1 := by
  refine (readOperands_leaves hinner (by omega)).bind fun r hr => ?_
  split
  next left right closing =>
    simp only [bareAll, termsNesting, Nat.max_le] at hr
    refine .pure ⟨⟨hfree, hr.1.1, hr.1.2.1⟩, Nat.succ_le_succ (Nat.max_le.mpr ?_)⟩
    exact ⟨hr.2.1, hr.2.2.1⟩
  next => exact .fail _ _

theorem readCall_leaves (opening : Span) {function : Expr} (hwf : function.bare.WellFormed scope)
    (hnesting : function.bare = .null ∨ function.bare.nesting ≤ level) :
    Leaves (readCall inner scope opening function) fun e =>
      e.bare.WellFormed scope ∧ e.bare.nesting ≤ level + 1 := by
  refine (readOperands_leaves hinner (by omega)).bind fun r hr => .pure ⟨⟨hwf, hr.1⟩, ?_⟩
  rw [Expr.bare]
  -- the word `null` in front of its operands is a token of the form and not a form of its own
  by_cases hnull : function.bare = .null
  · rw [hnull]
    exact Nat.succ_le_succ hr.2
  · rw [Term.nesting]
    · exact Nat.succ_le_succ (Nat.max_le.mpr ⟨hnesting.resolve_left hnull, hr.2⟩)
    · exact hnull

theorem readLetrec_leaves (hsound : inner.Sound level) (opening : Span) :
    Leaves (readSpecial inner scope opening .letrec) fun e =>
      e.bare.WellFormed scope ∧ e.bare.nesting ≤ level + 1 := by
  intro f e f' h
  -- the names that were read ahead are those of the bindings, which only the tokens can tell
  obtain ⟨bindings, body, closing, f₁, rfl, hbindings, hread⟩ := readLetrec_eq_ok hsound h
  have hlength : (scope.push (bindings.map (·.1))).locals.length + level ≤ maxNesting := by
    rw [Scope.length_locals_push]
    omega
  obtain ⟨hnodup, hinits, hshallow⟩ := readBindings_leaves hinner hlength .letrec _ _ _ hbindings
  obtain ⟨hne, hbody, hdepth⟩ := readBody_leaves hinner hlength opening .letrec _ _ _ hread
  rw [← map_fst_bareInits] at hinits hbody
  refine ⟨⟨hnodup, hinits, hne, hbody⟩, Nat.succ_le_succ (Nat.max_le.mpr ⟨hshallow, hdepth⟩)⟩

/-- A form behind its keyword. -/
theorem readSpecial_leaves (hsound : inner.Sound level) (opening : Span) (k : Keyword) :
    Leaves (readSpecial inner scope opening k) fun e =>
      e.bare.WellFormed scope ∧ e.bare.nesting ≤ level + 1 := by
  -- a frame more and a level less
  have hbody : ∀ (names : List String), (scope.push names).locals.length + level ≤ maxNesting := by
    intro names
    rw [Scope.length_locals_push]
    omega
  cases k with
  | if_ =>
    refine (readOperands_leaves hinner (by omega)).bind fun r hr => ?_
    split
    next c t e closing =>
      simp only [bareAll, termsNesting, Nat.max_le] at hr
      refine .pure ⟨⟨hr.1.1, hr.1.2.1, hr.1.2.2.1⟩, Nat.succ_le_succ (Nat.max_le.mpr ?_)⟩
      exact ⟨hr.2.1, Nat.max_le.mpr ⟨hr.2.2.1, hr.2.2.2.1⟩⟩
    next => exact .fail _ _
  | lambda =>
    refine .after fun _ => readParameters_leaves.bind fun params hnodup => ?_
    refine (readBody_leaves hinner (hbody params) opening .lambda).bind fun r hr => .pure ?_
    exact ⟨⟨hnodup, hr.1, hr.2.1⟩, Nat.succ_le_succ hr.2.2⟩
  | let_ =>
    refine (readBindings_leaves hinner (by omega) .let_).bind fun bindings hbindings => ?_
    refine (readBody_leaves hinner (hbody _) opening .let_).bind fun r hr => .pure ?_
    rw [← map_fst_bareInits] at hr
    exact ⟨⟨hbindings.1, hbindings.2.1, hr.1, hr.2.1⟩,
      Nat.succ_le_succ (Nat.max_le.mpr ⟨hbindings.2.2, hr.2.2⟩)⟩
  | letrec => exact readLetrec_leaves hinner hle hsound opening
  | begin_ =>
    refine (readOperands_leaves hinner (by omega)).bind fun r hr => ?_
    simp only
    split
    next =>
      intro f e f' h
      cases h
    next hne =>
      refine .pure ⟨⟨fun hnil => hne ?_, hr.1⟩, Nat.succ_le_succ hr.2⟩
      rw [bareAll_eq_map, List.map_eq_nil_iff] at hnil
      exact List.isEmpty_iff.mpr hnil
  | car | cdr | consp => exact readUnary_leaves hinner hle opening _
  | cons => exact readBinary_leaves hinner hle opening (BinaryOp.free_of_token (by simp [BinaryOp.token]))
  | quote =>
    refine .after fun blame => (hinner.datum blame).bind fun d hd => .after fun _ => .pure ?_
    exact ⟨trivial, Nat.succ_le_succ hd⟩
  | null => exact readCall_leaves hinner hle opening trivial (.inl rfl)
  | define | defineMacro => exact .fail _ _

/-- A form behind its opening parenthesis. -/
theorem readCompound_leaves (hsound : inner.Sound level) (opening : Span) :
    Leaves (readCompound inner scope opening) fun e =>
      e.bare.WellFormed scope ∧ e.bare.nesting ≤ level + 1 := by
  have hcall : ∀ blame, Leaves (do readCall inner scope opening (← inner.form blame scope)) fun e =>
      e.bare.WellFormed scope ∧ e.bare.nesting ≤ level + 1 := by
    intro blame
    refine (hinner.form blame (by omega)).bind fun function hfunction => ?_
    exact readCall_leaves hinner hle opening hfunction.1 (.inr hfunction.2)
  refine .after fun t => ?_
  split
  next k _ => exact .after fun _ => readSpecial_leaves hinner hle hsound opening k
  next o _ =>
    exact .after fun _ => readBinary_leaves hinner hle opening (BinaryOp.free_of_token nofun)
  next => exact .fail _ _
  next name _ =>
    split
    -- `and` or `or`, which nothing in the scope binds
    next op hop hfree =>
      exact .after fun _ => readBinary_leaves hinner hle opening (BinaryOp.free_of_ofName? hop hfree)
    next => exact hcall _
  next => exact hcall _

/-- **What is read is well-formed and not nested too deeply.** -/
theorem readForm_leaves (hsound : inner.Sound level) :
    Leaves (readForm inner scope) fun e =>
      e.bare.WellFormed scope ∧ e.bare.nesting ≤ level + 1 := by
  -- what is one token is nested as little as any form
  have hatom : 1 ≤ level + 1 := Nat.le_add_left 1 level
  refine .after fun t => ?_
  cases hkind : t.kind with
  | number n | boolean b | string text => exact .pure ⟨trivial, hatom⟩
  | identifier name =>
    dsimp only
    split
    next address hres => exact .pure ⟨Option.isSome_iff_exists.mpr ⟨address, hres⟩, hatom⟩
    next => exact nofun
  | keyword k =>
    cases k with
    | null => exact .pure ⟨trivial, hatom⟩
    | _ => exact .unexpected _ _
  | quote =>
    refine .after fun blame => (hinner.datum blame).bind fun d hd => .after fun _ => .pure ?_
    exact ⟨trivial, Nat.succ_le_succ hd⟩
  | backquote =>
    refine .after fun blame => (hinner.template blame (by omega)).bind fun t ht => .after fun _ => ?_
    exact .pure ⟨ht.1, Nat.succ_le_succ ht.2⟩
  | leftParen => exact readCompound_leaves hinner hle hsound t.span
  | comma => exact .fail _ _
  | operator o | rightParen | eof => exact .unexpected _ _

end

end

theorem readers_strict (level : Nat) : (readers level).Strict level := by
  induction level with
  | zero => exact ⟨fun _ _ _ => .fail _ _, fun _ => .fail _ _, fun _ _ _ => .fail _ _⟩
  | succ level ih =>
    refine ⟨fun _ _ hle => ?_, fun _ => readDatum_leaves ih, fun _ _ hle => ?_⟩
    · exact readForm_leaves ih hle (readers_sound level)
    · exact readTemplate_leaves ih (readers_sound level) (by omega)

/-! ## Programs -/

section
variable {inner : Readers} {level : Nat} {globals : List String} (hinner : inner.Strict level)
  (hsound : inner.Sound level) (hle : level + 1 ≤ maxNesting)
include hinner hle

theorem readDefinition_leaves (opening : Span) :
    Leaves (readDefinition inner { globals } opening) fun form =>
      form.bare.WellFormed globals ∧ form.bare.nesting ≤ level + 1 := by
  refine .after fun t => ?_
  split
  next =>
    refine .after fun p => readParameters_leaves.bind fun params hnodup => ?_
    -- at the top there is no frame yet, so the parameters make the first one
    have hlength : (({ globals : Scope }.define p.1).push params).locals.length + level ≤
        maxNesting := by
      rw [Scope.length_locals_push, Scope.define, List.length_nil]
      omega
    refine (readBody_leaves hinner hlength opening .define).bind fun r hr => .pure ?_
    exact ⟨⟨hnodup, hr.1, hr.2.1⟩, Nat.succ_le_succ hr.2.2⟩
  next name _ =>
    have hlength : ({ globals : Scope }.define name).locals.length + level ≤ maxNesting := by
      rw [Scope.define, List.length_nil]
      omega
    refine .after fun blame => (hinner.form blame hlength).bind fun e he => .after fun _ => .pure ?_
    exact ⟨he.1, Nat.succ_le_succ he.2⟩
  next => exact .unexpected _ _

include hsound

theorem readTopForm_leaves :
    Leaves (readTopForm inner { globals }) fun form =>
      form.bare.WellFormed globals ∧ form.bare.nesting ≤ level + 1 := by
  refine .after fun f => ?_
  split
  next opening span tail htokens =>
    exact .after fun _ => .after fun _ => readDefinition_leaves hinner hle opening
  next =>
    have hlength : ({ globals : Scope }).locals.length + (level + 1) ≤ maxNesting := by
      rw [List.length_nil]
      omega
    refine .after fun t => (readForm_leaves hinner hlength hsound).bind fun e he => ?_
    exact .after fun _ => .pure he

/-- Each form of a program is well-formed after the names that are defined before it. -/
theorem readProgram_leaves :
    Leaves (readProgram inner { globals }) fun p => p.bare ≠ [] ∧ p.bare.FormsWellFormed globals ∧
      ∀ form ∈ p.bare, form.nesting ≤ level + 1 := by
  have hforms := Leaves.collect (tryTopForm inner)
    (fun scope forms => scope.locals = [] → Listing.FormsWellFormed scope.globals (Program.bare forms) ∧
      ∀ form ∈ Program.bare forms, form.nesting ≤ level + 1)
    (fun _ _ => ⟨trivial, List.forall_mem_nil _⟩) (fun scope => ?_) { globals }
  · rw [readProgram_def]
    refine hforms.bind fun forms hheld => ?_
    split
    next => exact .after fun _ => nofun
    next hne =>
      refine .pure ⟨fun hnil => hne ?_, hheld rfl⟩
      exact List.isEmpty_iff.mpr (List.map_eq_nil_iff.mp hnil)
  · refine .after fun t => ?_
    split
    next => exact .pure nofun
    next => exact .fail _ _
    next =>
      intro f r f' hread form scope' hsome forms hheld hlocals
      -- definitions extend the globals, and leave the scope without frames
      obtain ⟨locals, globals⟩ := scope
      cases hlocals
      obtain ⟨form', f₁, hform, hpure⟩ := bind_eq_ok hread
      cases hpure
      cases hsome
      obtain ⟨hwf, hnesting⟩ := readTopForm_leaves hinner hsound hle _ _ _ hform
      rw [TopForm.elim_define, ← form.defined?_bare] at hheld
      obtain ⟨hforms, hdepth⟩ := hheld rfl
      exact ⟨⟨hwf, hforms⟩, List.forall_mem_cons.mpr ⟨hnesting, hdepth⟩⟩

end

/-- **Every program that is read is a program of the language.** -/
theorem Program.wellFormed_of_ofRun {globals : List String} {r : TokenRun} {p : Program}
    (h : Program.ofRun globals r = .ok p) : p.bare.WellFormed globals := by
  unfold Program.ofRun StateT.run' at h
  cases hread : readProgram (readers (maxNesting - 1)) { globals } (.ofRun r) with
  | error e =>
    rw [hread] at h
    cases h
  | ok result =>
    rw [hread] at h
    cases h
    obtain ⟨hne, hforms, hnesting⟩ := readProgram_leaves (readers_strict (maxNesting - 1))
      (readers_sound (maxNesting - 1)) (by decide) _ _ _ hread
    exact ⟨hne, hforms, hnesting⟩

end LispMachine
