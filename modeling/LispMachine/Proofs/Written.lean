import LispMachine.Proofs.Bare
import LispMachine.Proofs.Reading

/-!
# Readers give what is written

Where the tokens of a well-formed term stand at the front of a feed, the reader gives a tree of this
term and takes just these tokens, whatever follows (`readForm_gives`). So nothing that belongs to the
language is refused.

`Gives` says this of any reader. The lemmas about the moves that readers are made of come first, and a
reader is then followed move by move: `Gives.bind` cuts the tokens in two where the reader cuts them, and
`Gives.peek_bind` needs a first token, which decides the branch. So the proof for a production has the
shape of its reader, and never speaks of feeds. Each production of the grammar follows, and the levels of
nesting are tied together by `readers_complete`.

A loop is followed by `collect_gives`. It takes an invariant in the form of a function: the state of the
loop is computed from the items that were read, the names seen so far for a list of parameters and the
globals for a program.
-/

namespace LispMachine

open Read

/-- A reader gives something good wherever tokens of the given kinds stand, and takes these tokens. -/
def Gives {α : Type} (r : Read α) (kinds : List TokenKind) (Good : α → Prop) : Prop :=
  ∀ (f : Feed) (used rest : List Token), f.tokens = used ++ rest → used.map Token.kind = kinds →
    ∃ a f', r f = .ok (a, f') ∧ f'.tokens = rest ∧ f'.ending = f.ending ∧ Good a

/-! ## The moves of readers

A reader gives something wherever given tokens stand at the front of its feed (`Gives`). The lemmas here take
a reader apart along its binds, and the tokens along their appends.
-/

namespace Gives
variable {α β : Type} {kinds more : List TokenKind} {k : TokenKind} {Good : α → Prop}
  {Fine : β → Prop}

theorem pure {a : α} (h : Good a) : Gives (pure a) [] Good := by
  intro f used rest hf hused
  cases List.map_eq_nil_iff.mp hused
  exact ⟨a, f, rfl, hf, rfl, h⟩

theorem bind {x : Read α} {g : α → Read β} (hx : Gives x kinds Good)
    (hg : ∀ a, Good a → Gives (g a) more Fine) : Gives (x >>= g) (kinds ++ more) Fine := by
  intro f used rest hf hused
  obtain ⟨first, second, rfl, hfirst, hsecond⟩ := List.map_eq_append_iff.mp hused
  rw [List.append_assoc] at hf
  obtain ⟨a, f₁, hread, htokens, hending, hgood⟩ := hx f first (second ++ rest) hf hfirst
  obtain ⟨b, f₂, hread', htokens', hending', hfine⟩ := hg a hgood f₁ second rest htokens hsecond
  refine ⟨b, f₂, ?_, htokens', hending'.trans hending, hfine⟩
  rw [bind_of_ok hread]
  exact hread'

/-- What comes last takes nothing more. -/
theorem bind_last {x : Read α} {g : α → Read β} (hx : Gives x kinds Good)
    (hg : ∀ a, Good a → Gives (g a) [] Fine) : Gives (x >>= g) kinds Fine := by
  rw [← List.append_nil kinds]
  exact hx.bind hg

theorem next_bind {g : Token → Read β} (hg : ∀ t, t.kind = k → Gives (g t) kinds Fine) :
    Gives (next >>= g) (k :: kinds) Fine := by
  intro f used rest hf hused
  obtain ⟨t, tail, rfl, ht, htail⟩ := List.map_eq_cons_iff.mp hused
  obtain ⟨b, f', hread, htokens, hending, hfine⟩ :=
    hg t ht { f with tokens := tail ++ rest, position := t.span.stop } tail rest rfl htail
  refine ⟨b, f', ?_, htokens, hending, hfine⟩
  rw [bind_of_ok (next_cons hf)]
  exact hread

theorem peek_bind {g : Token → Read β} (hg : ∀ t, t.kind = k → Gives (g t) (k :: kinds) Fine) :
    Gives (peek >>= g) (k :: kinds) Fine := by
  intro f used rest hf hused
  obtain ⟨t, tail, rfl, ht, -⟩ := List.map_eq_cons_iff.mp hused
  obtain ⟨b, f', hread, hfeed⟩ := hg t ht f (t :: tail) rest hf hused
  refine ⟨b, f', ?_, hfeed⟩
  have hpeek : peek f = .ok (t, f) := by
    unfold peek
    rw [hf]
    rfl
  rw [bind_of_ok hpeek]
  exact hread

theorem position_bind {g : Nat → Read β} (hg : ∀ p, Gives (g p) kinds Fine) :
    Gives (position >>= g) kinds Fine :=
  fun f used rest hf hused => hg f.position f used rest hf hused

theorem expect_bind {expected : Expectation} {g : Token → Read β} (hg : ∀ t, Gives (g t) kinds Fine) :
    Gives (expect k expected >>= g) (k :: kinds) Fine := by
  have hexpect : Gives (expect k expected) [k] (fun _ => True) := by
    refine next_bind fun t ht => ?_
    rw [if_pos ht]
    exact .pure trivial
  exact hexpect.bind fun t _ => hg t

theorem identifier_bind {name : String} {expected : Expectation} {g : String × Span → Read β}
    (hg : ∀ span, Gives (g (name, span)) kinds Fine) :
    Gives (Read.identifier expected >>= g) (.identifier name :: kinds) Fine := by
  have hname : Gives (Read.identifier expected) [.identifier name] (·.1 = name) := by
    refine next_bind fun t ht => ?_
    simp only [ht]
    exact .pure rfl
  refine hname.bind fun p hp => ?_
  obtain ⟨name', span⟩ := p
  cases hp
  exact hg span

end Gives

/-- A datum does not start with a closing parenthesis. -/
theorem Skips.head_ne_rightParen {k : TokenKind} {kinds : List TokenKind} (h : Skips (k :: kinds)) :
    k ≠ .rightParen := by
  rintro rfl
  have hspan : ∀ kinds : List TokenKind,
      (kinds.map fun k => (⟨k, .point 0⟩ : Token)).map Token.kind = kinds := by
    intro kinds
    rw [List.map_map]
    exact List.map_id kinds
  -- inside of one parenthesis the first token would end the datum, and it must not
  have hskip := h _ (hspan _) 1 []
  rw [if_neg Nat.one_ne_zero, List.append_nil, List.map_cons] at hskip
  cases hskip

section
variable {α σ τ : Type} {kinds : τ → List TokenKind}

/-- The loop collects the items that are written, up to where its step ends it. The state that the step
gets is a function of the items before. -/
theorem collect_gives (step : σ → Read (Option (α × σ))) (bare : α → τ) (state : List τ → σ)
    (Done : Feed → Prop) {ts : List τ}
    (hitem : ∀ before t after, ts = before ++ t :: after → Gives (step (state before)) (kinds t)
      (fun r => ∃ a, r = some (a, state (before ++ [t])) ∧ bare a = t))
    (hne : ∀ t ∈ ts, kinds t ≠ []) {f : Feed} {used rest : List Token} (hf : f.tokens = used ++ rest)
    (hused : used.map Token.kind = ts.flatMap kinds)
    (hdone : ∀ f₁ : Feed, f₁.tokens = rest → f₁.ending = f.ending →
      ∃ f', step (state ts) f₁ = .ok (none, f') ∧ Done f') :
    ∃ as f', collect step (state []) f = .ok (as, f') ∧ as.map bare = ts ∧ Done f' := by
  -- by induction on the items that are still to come, for any items before them: the state of the loop
  -- depends on those
  have hcollects : ∀ after before (f₁ : Feed) used, ts = before ++ after → f₁.tokens = used ++ rest →
      f₁.ending = f.ending → used.map Token.kind = after.flatMap kinds →
      ∃ as f', Collects step (state before) f₁ as f' ∧ as.map bare = after ∧
        as.length ≤ used.length ∧ Done f' := by
    intro after
    induction after with
    | nil =>
      intro before f₁ used hts htokens hending hused
      cases List.map_eq_nil_iff.mp hused
      rw [List.append_nil] at hts
      subst hts
      obtain ⟨f', hstep, hend⟩ := hdone f₁ htokens hending
      exact ⟨[], f', .done hstep, rfl, Nat.le_refl 0, hend⟩
    | cons t after ih =>
      intro before f₁ used hts htokens hending hused
      rw [List.flatMap_cons] at hused
      obtain ⟨first, second, rfl, hfirst, hsecond⟩ := List.map_eq_append_iff.mp hused
      rw [List.append_assoc] at htokens
      obtain ⟨_, f₂, hstep, htokens₂, hending₂, a, rfl, hbare⟩ :=
        hitem before t after hts f₁ first _ htokens hfirst
      have hts' : ts = (before ++ [t]) ++ after := by rw [hts, List.append_assoc]; rfl
      obtain ⟨as, f', hrest, hmap, hlength, hend⟩ :=
        ih _ f₂ second hts' htokens₂ (hending₂.trans hending) hsecond
      refine ⟨a :: as, f', .item hstep hrest, ?_, ?_, hend⟩
      · rw [List.map_cons, hbare, hmap]
      -- an item without tokens would make the loop go round for ever
      · have hpos : 0 < first.length := by
          refine List.length_pos_iff.mpr fun hnil => ?_
          rw [hnil] at hfirst
          exact hne t (by rw [hts]; exact List.mem_append_right _ List.mem_cons_self) hfirst.symm
        rw [List.length_cons, List.length_append]
        omega
  obtain ⟨as, f', hloop, hmap, hlength, hend⟩ := hcollects ts [] f used rfl hf rfl hused
  refine ⟨as, f', ?_, hmap, hend⟩
  -- every item takes a token, so the rounds that the loop is given are enough
  have hlt : as.length < f.tokens.length + 1 := by
    rw [hf, List.length_append]
    omega
  exact hloop.collectFor_eq hlt

/-- Items up to a closing parenthesis that the step takes. -/
theorem Gives.collect_closed {step : σ → Read (Option (α × σ))} {bare : α → τ} (state : List τ → σ)
    {ts : List τ}
    (hitem : ∀ before t after, ts = before ++ t :: after → Gives (step (state before)) (kinds t)
      (fun r => ∃ a, r = some (a, state (before ++ [t])) ∧ bare a = t))
    (hne : ∀ t ∈ ts, kinds t ≠ []) (hclose : Gives (step (state ts)) [.rightParen] (· = none)) :
    Gives (Read.collect step (state [])) (ts.flatMap kinds ++ [.rightParen])
      (fun as => as.map bare = ts) := by
  intro f used rest hf hused
  obtain ⟨items, last, rfl, hitems, hlast⟩ := List.map_eq_append_iff.mp hused
  rw [List.append_assoc] at hf
  have hparts := collect_gives step bare state (fun f' => f'.tokens = rest ∧ f'.ending = f.ending)
    hitem hne hf hitems (fun f₁ htokens hending => ?_)
  · obtain ⟨as, f', hcollect, hmap, htokens, hending⟩ := hparts
    exact ⟨as, f', hcollect, htokens, hending, hmap⟩
  · obtain ⟨_, f', hstep, htokens', hending', rfl⟩ := hclose f₁ last rest htokens hlast
    exact ⟨f', hstep, htokens', hending'.trans hending⟩

/-- A try for an item where one is written. -/
theorem Gives.untilClose_try {item : Nat → Read α} {bare : α → τ} {t : τ}
    (hitem : ∀ blame, Gives (item blame) (kinds t) (bare · = t)) (hskips : Skips (kinds t)) :
    Gives (do
        let t ← peek
        if t.kind = .rightParen then return none
        return some (← item t.span.start, ()))
      (kinds t) (fun r => ∃ a, r = some (a, ()) ∧ bare a = t) := by
  generalize kinds t = written at hskips hitem
  cases written with
  | nil => exact absurd rfl hskips.ne_nil
  | cons k written =>
    refine .peek_bind fun token htoken => ?_
    rw [if_neg (by rw [htoken]; exact hskips.head_ne_rightParen)]
    exact (hitem token.span.start).bind_last fun a ha => .pure ⟨a, rfl, ha⟩

/-- Items up to the closing parenthesis. -/
theorem Gives.untilClose {item : Nat → Read α} {bare : α → τ} {ts : List τ}
    (hitem : ∀ t ∈ ts, ∀ blame, Gives (item blame) (kinds t) (bare · = t))
    (hskips : ∀ t ∈ ts, Skips (kinds t)) :
    Gives (untilClose item) (ts.flatMap kinds ++ [.rightParen]) (fun r => r.1.map bare = ts) := by
  intro f used rest hf hused
  obtain ⟨items, last, rfl, hitems, hlast⟩ := List.map_eq_append_iff.mp hused
  obtain ⟨closing, nothing, rfl, hclosing, hnothing⟩ := List.map_eq_cons_iff.mp hlast
  cases List.map_eq_nil_iff.mp hnothing
  rw [List.append_assoc] at hf
  have hparts := collect_gives (fun _ => do
      let t ← peek
      if t.kind = .rightParen then return none
      return some (← item t.span.start, ()))
    -- the step only looks at the closing parenthesis; it is taken behind the loop
    bare (fun _ => ()) (fun f' => f'.tokens = closing :: rest ∧ f'.ending = f.ending)
    (fun before t after hts => ?_) (fun t ht => (hskips t ht).ne_nil) hf hitems
    (fun f₁ htokens hending => ?_)
  · obtain ⟨as, f', hcollect, hmap, htokens, hending⟩ := hparts
    refine ⟨(as, closing.span), { f' with tokens := rest, position := closing.span.stop }, ?_, rfl,
      hending, hmap⟩
    show (collect _ () >>= _) f = _
    rw [bind_of_ok hcollect, bind_of_ok (next_cons htokens)]
    rfl
  · have ht : t ∈ ts := by
      rw [hts]
      exact List.mem_append_right _ List.mem_cons_self
    exact .untilClose_try (hitem t ht) (hskips t ht)
  · have hpeek : peek f₁ = .ok (closing, f₁) := by
      unfold peek
      rw [htokens]
      rfl
    refine ⟨f₁, ?_, htokens, hending⟩
    rw [bind_of_ok hpeek, if_pos hclosing]
    rfl

end

/-! ## Data and templates -/

/-- What the readers of one level promise: whatever is well-formed and nested no deeper is given where
it is written. -/
structure Readers.Complete (inner : Readers) (level : Nat) : Prop where
  form : ∀ {scope : Scope} {t : Term} (blame : Nat), t.WellFormed scope → t.nesting ≤ level →
    Gives (inner.form blame scope) t.kinds (Expr.bare · = t)
  datum : ∀ {d : Datum} (blame : Nat), d.nesting ≤ level → Gives (inner.datum blame) d.kinds (· = d)
  template : ∀ {scope : Scope} {t : TermTemplate} (blame : Nat), t.WellFormed scope →
    t.nesting ≤ level → Gives (inner.template blame scope) t.kinds (Template.bare · = t)

section
variable {inner : Readers} {level : Nat} {scope : Scope} (hinner : inner.Complete level)
include hinner

theorem readDatum_gives {d : Datum} (hle : d.nesting ≤ level + 1) :
    Gives (readDatum inner) d.kinds (· = d) := by
  cases d with
  | literal l =>
    cases l <;>
    · refine .next_bind fun t ht => ?_
      simp only [ht]
      exact .pure rfl
  | word w =>
    cases w <;>
    · refine .next_bind fun t ht => ?_
      simp only [ht]
      exact .pure rfl
  | list items =>
    rw [Datum.nesting, Nat.add_le_add_iff_right, dataNesting_le] at hle
    refine .next_bind fun t ht => ?_
    simp only [ht]
    have hitems : Gives (untilClose inner.datum) (items.flatMap Datum.kinds ++ [.rightParen])
        (fun r => r.1.map id = items) :=
      .untilClose (fun d hd blame => hinner.datum blame (hle d hd)) (fun d _ => d.skips)
    rw [dataKinds_eq_flatMap]
    refine hitems.bind_last fun r hr => ?_
    rw [List.map_id] at hr
    exact .pure (congrArg Datum.list hr)
  | marked mark d =>
    rw [Datum.nesting, Nat.add_le_add_iff_right] at hle
    -- the four marks are taken as tokens of their own and read on alike
    have hread : ∀ mark : Mark, Gives (do return Datum.marked mark (← inner.datum (← position)))
        d.kinds (· = .marked mark d) := by
      intro mark
      refine .position_bind fun blame => (hinner.datum blame hle).bind_last fun d' hd' => ?_
      exact .pure (congrArg (Datum.marked mark) hd')
    cases mark <;>
    · refine .next_bind fun t ht => ?_
      simp only [ht]
      exact hread _

/-- What neither a hole nor a list can be is read as a datum. -/
theorem readTemplate_gives_plain {d : Datum} (hplain : d.Plain) (hle : d.nesting ≤ level) :
    Gives (readTemplate inner scope) d.kinds (Template.bare · = .datum d) := by
  have hread : ∀ blame, Gives (do return Template.datum (← inner.datum blame)) d.kinds
      (Template.bare · = .datum d) := by
    intro blame
    exact (hinner.datum blame hle).bind_last fun d' hd' => .pure (congrArg TermTemplate.datum hd')
  -- one look decides, and any first token but these three leads to the reader of data
  have hpeek : ∀ {k : TokenKind} {kinds : List TokenKind}, d.kinds = k :: kinds → k ≠ .comma →
      k ≠ .backquote → k ≠ .leftParen →
      Gives (readTemplate inner scope) d.kinds (Template.bare · = .datum d) := by
    intro k kinds hkinds hcomma hback hleft
    rw [hkinds] at hread ⊢
    refine .peek_bind fun t ht => ?_
    split
    next hk => exact absurd (ht.symm.trans hk) hcomma
    next hk => exact absurd (ht.symm.trans hk) hback
    next hk => exact absurd (ht.symm.trans hk) hleft
    next => exact hread t.span.start
  cases d with
  | literal l => cases l <;> exact hpeek rfl nofun nofun nofun
  | word w => cases w <;> exact hpeek rfl nofun nofun nofun
  | list items => exact hplain.elim
  | marked mark d =>
    cases mark with
    | quote => exact hpeek rfl nofun nofun nofun
    | quasiquote | unquote => exact hplain.elim

theorem readTemplate_gives {t : TermTemplate} (hwf : t.WellFormed scope)
    (hle : t.nesting ≤ level + 1) :
    Gives (readTemplate inner scope) t.kinds (Template.bare · = t) := by
  cases t with
  | hole t =>
    rw [TermTemplate.nesting, Nat.add_le_add_iff_right] at hle
    refine .peek_bind fun token htoken => ?_
    simp only [htoken]
    refine .next_bind fun _ _ => .position_bind fun blame => ?_
    exact (hinner.form blame hwf hle).bind_last fun e he => .pure (congrArg TermTemplate.hole he)
  | datum d =>
    rw [TermTemplate.nesting, Nat.add_le_add_iff_right] at hle
    exact readTemplate_gives_plain hinner hwf hle
  | list items =>
    rw [TermTemplate.nesting, Nat.add_le_add_iff_right, itemsNesting_le] at hle
    have hwf := wellFormedItems_iff.mp hwf
    refine .peek_bind fun token htoken => ?_
    simp only [htoken]
    refine .next_bind fun _ _ => ?_
    have hitems : Gives (untilClose (inner.template · scope))
        (items.flatMap TermTemplate.kinds ++ [.rightParen]) (fun r => r.1.map Template.bare = items) :=
      .untilClose (fun t ht blame => hinner.template blame (hwf t ht) (hle t ht)) (fun t _ => t.skips)
    rw [itemKinds_eq_flatMap]
    refine hitems.bind_last fun r hr => .pure ?_
    rw [Template.bare, bareItems_eq_map, hr]

/-! ## The parts of forms -/

theorem readOperands_gives (ts : List Term) (hwf : WellFormedAll scope ts)
    (hle : termsNesting ts ≤ level) :
    Gives (readOperands inner scope) (termKinds ts ++ [.rightParen])
      (fun r => r.1.map Expr.bare = ts) := by
  rw [termsNesting_le] at hle
  have hwf := wellFormedAll_iff.mp hwf
  rw [termKinds_eq_flatMap]
  exact .untilClose (fun t ht blame => hinner.form blame (hwf t ht) (hle t ht)) (fun t _ => t.skips)

theorem readBody_gives {ts : List Term} (opening : Span) (form : Keyword)
    (hwf : WellFormedAll scope ts) (hne : ts ≠ []) (hle : termsNesting ts ≤ level) :
    Gives (readBody inner scope opening form) (termKinds ts ++ [.rightParen])
      (fun r => r.1.map Expr.bare = ts) := by
  refine (readOperands_gives hinner _ hwf hle).bind_last fun r hr => ?_
  -- a body without forms is refused only after it was read
  have hempty : ¬ r.1.isEmpty := by
    intro hnil
    rw [List.isEmpty_iff.mp hnil] at hr
    exact hne hr.symm
  simp only
  rw [if_neg hempty]
  exact .pure hr

omit hinner in
theorem readParameters_gives {params : List String} (h : params.Nodup) :
    Gives readParameters (params.map .identifier ++ [.rightParen]) (· = params) := by
  suffices hnames : Gives readParameters (params.map .identifier ++ [.rightParen]) (·.map id = params) by
    simpa only [List.map_id] using hnames
  rw [List.map_eq_flatMap]
  refine .collect_closed List.reverse (fun before name after hparams => ?_)
    (fun _ _ => List.cons_ne_nil _ _) ?_
  · -- a name that was seen would stand twice among the parameters
    have hnew : name ∉ before.reverse := by
      rw [hparams] at h
      intro hmem
      exact (List.nodup_append.mp h).2.2 name (List.mem_reverse.mp hmem) name List.mem_cons_self rfl
    refine .next_bind fun t ht => ?_
    simp only [ht]
    rw [if_neg hnew]
    refine .pure ⟨name, ?_, rfl⟩
    rw [List.reverse_append]
    rfl
  · refine .next_bind fun t ht => ?_
    simp only [ht]
    exact .pure rfl

theorem readBinding_gives {name : String} {t : Term} (form : Keyword) {seen : List String}
    (hnew : name ∉ seen) (hwf : t.WellFormed scope) (hle : t.nesting ≤ level) :
    Gives (readBinding inner scope form seen) (.identifier name :: (t.kinds ++ [.rightParen]))
      (bareBinding · = (name, t)) := by
  refine .identifier_bind fun span => ?_
  simp only
  rw [if_neg hnew]
  refine .position_bind fun blame => (hinner.form blame hwf hle).bind fun e he => .expect_bind fun _ => ?_
  exact .pure (congrArg (Prod.mk name) he)

theorem readBindings_gives {bindings : List (String × Term)} (form : Keyword)
    (hnodup : (bindings.map (·.1)).Nodup) (hwf : WellFormedInits scope bindings)
    (hle : initsNesting bindings ≤ level) :
    Gives (readBindings inner scope form) (inParens (initKinds bindings))
      (fun r => r.map bareBinding = bindings) := by
  rw [initsNesting_le] at hle
  have hwf := wellFormedInits_iff.mp hwf
  refine .expect_bind fun _ => ?_
  rw [initKinds_eq_flatMap]
  refine .collect_closed (fun before => (before.map (·.1)).reverse) (fun before b after hbindings => ?_)
    (fun _ _ => List.cons_ne_nil _ _) ?_
  · have hmem : b ∈ bindings := by
      rw [hbindings]
      exact List.mem_append_right _ List.mem_cons_self
    have hnew : b.1 ∉ (before.map (·.1)).reverse := by
      rw [hbindings, List.map_append] at hnodup
      intro hseen
      exact (List.nodup_append.mp hnodup).2.2 b.1 (List.mem_reverse.mp hseen) b.1
        List.mem_cons_self rfl
    refine .next_bind fun t ht => ?_
    simp only [ht]
    refine (readBinding_gives hinner form hnew (hwf b hmem) (hle b hmem)).bind_last fun b' hb' => ?_
    have hname : b'.1 = b.1 := congrArg Prod.fst hb'
    refine .pure ⟨b', ?_, hb'⟩
    rw [hname, List.map_append, List.reverse_append]
    rfl
  · refine .next_bind fun t ht => ?_
    simp only [ht]
    exact .pure rfl

omit hinner in
/-- Reading ahead finds the names of the bindings that are written. -/
theorem bindingNames_bind {β : Type} {bindings : List (String × Term)} {g : List String → Read β}
    {more : List TokenKind} {Fine : β → Prop}
    (hg : Gives (g (bindings.map (·.1))) (inParens (initKinds bindings) ++ more) Fine) :
    Gives (bindingNames >>= g) (inParens (initKinds bindings) ++ more) Fine := by
  intro f used rest hf hused
  obtain ⟨b, f', hread, hfeed⟩ := hg f used rest hf hused
  refine ⟨b, f', ?_, hfeed⟩
  obtain ⟨first, second, rfl, hfirst, -⟩ := List.map_eq_append_iff.mp hused
  rw [List.append_assoc] at hf
  -- reading ahead is known for trees, so the bindings are dressed with spans that nothing depends on
  have htakes : Takes f (inParens (bindingKinds (dressInits bindings))) (f.skipTo (second ++ rest)) := by
    rw [← bindingKinds_bare, bare_dressInits]
    exact ⟨rfl, first, hf, hfirst⟩
  have hnames := bindingNames_eq htakes
  rw [← map_fst_bareInits, bare_dressInits] at hnames
  rw [bind_of_ok hnames]
  exact hread

/-! ## Forms in parentheses

Behind the keyword, the tokens of a well-formed term leave the reader no other way. The conditions of
well-formedness are used one by one, each where the reader would complain.
-/

theorem readUnary_gives {t : Term} (opening : Span) (op : UnaryOp) (hwf : t.WellFormed scope)
    (hle : t.nesting ≤ level) :
    Gives (readUnary inner scope opening op) (t.kinds ++ [.rightParen]) (Expr.bare · = .unary op t) := by
  have hoperands := readOperands_gives hinner [t] ⟨hwf, trivial⟩
    (by simpa [termsNesting] using hle)
  rw [termKinds, termKinds, List.append_nil] at hoperands
  refine hoperands.bind_last fun r hr => ?_
  obtain ⟨operands, closing⟩ := r
  obtain ⟨operand, rest, rfl, hoperand, hrest⟩ := List.map_eq_cons_iff.mp hr
  cases List.map_eq_nil_iff.mp hrest
  exact .pure (congrArg (Term.unary op) hoperand)

theorem readBinary_gives {left right : Term} (opening : Span) (op : BinaryOp)
    (hleft : left.WellFormed scope) (hright : right.WellFormed scope)
    (hle : max left.nesting right.nesting ≤ level) :
    Gives (readBinary inner scope opening op) (left.kinds ++ right.kinds ++ [.rightParen])
      (Expr.bare · = .binary op left right) := by
  have hoperands := readOperands_gives hinner [left, right] ⟨hleft, hright, trivial⟩
    (by simpa [termsNesting] using hle)
  rw [termKinds, termKinds, termKinds, List.append_nil] at hoperands
  refine hoperands.bind_last fun r hr => ?_
  obtain ⟨operands, closing⟩ := r
  obtain ⟨l, rest, rfl, hl, hrest⟩ := List.map_eq_cons_iff.mp hr
  obtain ⟨r, rest, rfl, hr', hrest⟩ := List.map_eq_cons_iff.mp hrest
  cases List.map_eq_nil_iff.mp hrest
  refine .pure ?_
  rw [Expr.bare, hl, hr']

theorem readIf_gives {c t e : Term} (opening : Span) (hwf : (Term.ifElse c t e).WellFormed scope)
    (hle : (Term.ifElse c t e).nesting ≤ level + 1) :
    Gives (readSpecial inner scope opening .if_) (c.kinds ++ (t.kinds ++ e.kinds) ++ [.rightParen])
      (Expr.bare · = .ifElse c t e) := by
  rw [Term.nesting, Nat.add_le_add_iff_right] at hle
  have hoperands := readOperands_gives hinner [c, t, e] ⟨hwf.1, hwf.2.1, hwf.2.2, trivial⟩
    (by simpa [termsNesting] using hle)
  rw [termKinds, termKinds, termKinds, termKinds, List.append_nil] at hoperands
  refine hoperands.bind_last fun r hr => ?_
  obtain ⟨operands, closing⟩ := r
  obtain ⟨c', rest, rfl, hc, hrest⟩ := List.map_eq_cons_iff.mp hr
  obtain ⟨t', rest, rfl, ht, hrest⟩ := List.map_eq_cons_iff.mp hrest
  obtain ⟨e', rest, rfl, he, hrest⟩ := List.map_eq_cons_iff.mp hrest
  cases List.map_eq_nil_iff.mp hrest
  refine .pure ?_
  rw [Expr.bare, hc, ht, he]

theorem readLambda_gives {params : List String} {body : List Term} (opening : Span)
    (hwf : (Term.lambda params body).WellFormed scope)
    (hle : (Term.lambda params body).nesting ≤ level + 1) :
    Gives (readSpecial inner scope opening .lambda)
      (nameKinds params ++ termKinds body ++ [.rightParen]) (Expr.bare · = .lambda params body) := by
  rw [Term.nesting, Nat.add_le_add_iff_right] at hle
  obtain ⟨hnodup, hne, hbody⟩ := hwf
  rw [List.append_assoc]
  refine .expect_bind fun _ => (readParameters_gives hnodup).bind fun params' hparams => ?_
  subst hparams
  refine (readBody_gives hinner opening .lambda hbody hne hle).bind_last fun r hr => .pure ?_
  rw [Expr.bare, bareAll_eq_map, hr]

section
variable {bindings : List (String × Term)} {body : List Term}

theorem readLet_gives (opening : Span) (hwf : (Term.letIn bindings body).WellFormed scope)
    (hle : (Term.letIn bindings body).nesting ≤ level + 1) :
    Gives (readSpecial inner scope opening .let_)
      (inParens (initKinds bindings) ++ termKinds body ++ [.rightParen])
      (Expr.bare · = .letIn bindings body) := by
  rw [Term.nesting, Nat.add_le_add_iff_right, Nat.max_le] at hle
  obtain ⟨hnodup, hinits, hne, hbody⟩ := hwf
  rw [List.append_assoc]
  refine (readBindings_gives hinner .let_ hnodup hinits hle.1).bind fun bindings' hbindings => ?_
  -- the body is read in a frame of the names that were read
  have hnames : bindings'.map (·.1) = bindings.map (·.1) := by
    rw [← hbindings, List.map_map]
    rfl
  rw [hnames]
  refine (readBody_gives hinner opening .let_ hbody hne hle.2).bind_last fun r hr => .pure ?_
  rw [Expr.bare, bareAll_eq_map, bareInits_eq_map, hr, hbindings]

theorem readLetrec_gives (opening : Span) (hwf : (Term.letrec bindings body).WellFormed scope)
    (hle : (Term.letrec bindings body).nesting ≤ level + 1) :
    Gives (readSpecial inner scope opening .letrec)
      (inParens (initKinds bindings) ++ termKinds body ++ [.rightParen])
      (Expr.bare · = .letrec bindings body) := by
  rw [Term.nesting, Nat.add_le_add_iff_right, Nat.max_le] at hle
  obtain ⟨hnodup, hinits, hne, hbody⟩ := hwf
  rw [List.append_assoc]
  -- the frame has to be there before the initialisers are read, hence the names are read ahead
  refine bindingNames_bind ?_
  refine (readBindings_gives hinner .letrec hnodup hinits hle.1).bind fun bindings' hbindings => ?_
  refine (readBody_gives hinner opening .letrec hbody hne hle.2).bind_last fun r hr => .pure ?_
  rw [Expr.bare, bareAll_eq_map, bareInits_eq_map, hr, hbindings]

end

theorem readBegin_gives {forms : List Term} (opening : Span)
    (hwf : (Term.sequence forms).WellFormed scope) (hle : (Term.sequence forms).nesting ≤ level + 1) :
    Gives (readSpecial inner scope opening .begin_) (termKinds forms ++ [.rightParen])
      (Expr.bare · = .sequence forms) := by
  rw [Term.nesting, Nat.add_le_add_iff_right] at hle
  refine (readOperands_gives hinner forms hwf.2 hle).bind_last fun r hr => ?_
  have hempty : ¬ r.1.isEmpty := by
    intro hnil
    rw [List.isEmpty_iff.mp hnil] at hr
    exact hwf.1 hr.symm
  simp only
  rw [if_neg hempty]
  refine .pure ?_
  rw [Expr.bare, bareAll_eq_map, hr]

theorem readCall_gives {args : List Term} (opening : Span) (function : Expr)
    (hwf : WellFormedAll scope args) (hle : termsNesting args ≤ level) :
    Gives (readCall inner scope opening function) (termKinds args ++ [.rightParen])
      (Expr.bare · = .app function.bare args) := by
  refine (readOperands_gives hinner _ hwf hle).bind_last fun r hr => .pure ?_
  rw [Expr.bare, bareAll_eq_map, hr]

omit hinner in
/-- A form that starts with a keyword. -/
theorem readCompound_gives_keyword {opening : Span} {k : Keyword} {kinds : List TokenKind}
    {Good : Expr → Prop} (h : Gives (readSpecial inner scope opening k) kinds Good) :
    Gives (readCompound inner scope opening) (.keyword k :: kinds) Good := by
  refine .peek_bind fun t ht => ?_
  simp only [ht]
  exact .next_bind fun _ _ => h

omit hinner in
/-- A form that starts with a primitive of two operands. -/
theorem readCompound_gives_binary {opening : Span} {op : BinaryOp} {kinds : List TokenKind}
    {Good : Expr → Prop} (hfree : op.Free scope) (hcons : op ≠ .cons)
    (h : Gives (readBinary inner scope opening op) kinds Good) :
    Gives (readCompound inner scope opening) (op.token :: kinds) Good := by
  refine .peek_bind fun t ht => ?_
  cases op with
  | cons => exact absurd rfl hcons
  | operator o =>
    rw [BinaryOp.token] at ht
    simp only [ht]
    exact .next_bind fun _ _ => h
  | and =>
    rw [BinaryOp.token] at ht
    simp only [ht, BinaryOp.ofName?, hfree "and" rfl]
    exact .next_bind fun _ _ => h
  | or =>
    rw [BinaryOp.token] at ht
    simp only [ht, BinaryOp.ofName?, hfree "or" rfl]
    exact .next_bind fun _ _ => h

omit hinner in
/-- The first token of a term that is not the word `null` starts no special form. -/
theorem Term.kinds_eq_cons {t : Term} (hnull : t ≠ .null) :
    ∃ k kinds, t.kinds = k :: kinds ∧ (∀ word, k ≠ .keyword word) ∧ (∀ o, k ≠ .operator o) ∧
      k ≠ .rightParen ∧ ∀ name, k = .identifier name → t = .var name := by
  cases t with
  | null => exact absurd rfl hnull
  | literal l => cases l <;> exact ⟨_, _, rfl, nofun, nofun, nofun, nofun⟩
  | var name =>
    refine ⟨_, _, rfl, nofun, nofun, nofun, fun name' hname => ?_⟩
    cases hname
    rfl
  | _ => exact ⟨_, _, rfl, nofun, nofun, nofun, nofun⟩

/-- A form that starts with an expression. -/
theorem readCompound_gives_call {function : Term} {args : List Term} (opening : Span)
    (hnull : function ≠ .null) (hfunction : function.WellFormed scope)
    (hargs : WellFormedAll scope args) (hle : max function.nesting (termsNesting args) ≤ level) :
    Gives (readCompound inner scope opening) (function.kinds ++ termKinds args ++ [.rightParen])
      (Expr.bare · = .app function args) := by
  -- what every branch below that is not excluded comes to
  have hcall : ∀ blame, Gives (do readCall inner scope opening (← inner.form blame scope))
      (function.kinds ++ termKinds args ++ [.rightParen]) (Expr.bare · = .app function args) := by
    intro blame
    rw [List.append_assoc]
    refine (hinner.form blame hfunction (by omega)).bind fun e he => ?_
    cases he
    exact readCall_gives hinner opening e hargs (by omega)
  obtain ⟨k, kinds, hkinds, hkeyword, hoperator, hclose, hname⟩ := Term.kinds_eq_cons hnull
  rw [hkinds] at hcall ⊢
  refine .peek_bind fun t ht => ?_
  split
  next word hk => exact absurd (ht.symm.trans hk) (hkeyword word)
  next o hk => exact absurd (ht.symm.trans hk) (hoperator o)
  next hk => exact absurd (ht.symm.trans hk) hclose
  next name hk =>
    cases hname name (ht.symm.trans hk)
    obtain ⟨address, hres⟩ := Option.isSome_iff_exists.mp hfunction
    rw [hres]
    -- a name that is bound is called, be it `and` or `or`
    cases BinaryOp.ofName? name <;> exact hcall t.span.start
  next => exact hcall t.span.start

/-- **An expression that is well-formed and not nested too deeply is read where it is written.** -/
theorem readForm_gives {t : Term} (hwf : t.WellFormed scope) (hle : t.nesting ≤ level + 1) :
    Gives (readForm inner scope) t.kinds (Expr.bare · = t) := by
  -- a form in parentheses, behind the opening one
  have hparens : ∀ {kinds : List TokenKind} {Good : Expr → Prop},
      (∀ opening, Gives (readCompound inner scope opening) (kinds ++ [.rightParen]) Good) →
      Gives (readForm inner scope) (inParens kinds) Good := by
    intro kinds Good h
    refine .next_bind fun opening hopening => ?_
    simp only [hopening]
    exact h opening.span
  have hspecial : ∀ {k : Keyword} {kinds : List TokenKind} {Good : Expr → Prop},
      (∀ opening, Gives (readSpecial inner scope opening k) (kinds ++ [.rightParen]) Good) →
      Gives (readForm inner scope) (inParens (.keyword k :: kinds)) Good :=
    fun h => hparens fun opening => readCompound_gives_keyword (h opening)
  cases t with
  | literal l =>
    cases l <;>
    · refine .next_bind fun t ht => ?_
      rw [ht]
      exact .pure rfl
  | null =>
    refine .next_bind fun t ht => ?_
    simp only [ht]
    exact .pure rfl
  | var name =>
    obtain ⟨address, hres⟩ := Option.isSome_iff_exists.mp hwf
    refine .next_bind fun t ht => ?_
    simp only [ht, hres]
    exact .pure rfl
  | quote d =>
    rw [Term.nesting, Nat.add_le_add_iff_right] at hle
    refine .next_bind fun t ht => ?_
    simp only [ht]
    refine .position_bind fun blame => (hinner.datum blame hle).bind_last fun d' hd' => ?_
    exact .position_bind fun stop => .pure (congrArg Term.quote hd')
  | quoteForm d =>
    rw [Term.nesting, Nat.add_le_add_iff_right] at hle
    refine hspecial fun opening => ?_
    refine .position_bind fun blame => (hinner.datum blame hle).bind fun d' hd' => ?_
    exact .expect_bind fun _ => .pure (congrArg Term.quoteForm hd')
  | quasi t =>
    rw [Term.nesting, Nat.add_le_add_iff_right] at hle
    refine .next_bind fun token htoken => ?_
    simp only [htoken]
    refine .position_bind fun blame => (hinner.template blame hwf hle).bind_last fun t' ht' => ?_
    exact .position_bind fun stop => .pure (congrArg Term.quasi ht')
  | unary op t =>
    rw [Term.nesting, Nat.add_le_add_iff_right] at hle
    refine hspecial fun opening => ?_
    -- each of these has a keyword of its own, and all are read alike
    cases op <;> exact readUnary_gives hinner opening _ hwf hle
  | binary op left right =>
    rw [Term.nesting, Nat.add_le_add_iff_right] at hle
    refine hparens fun opening => ?_
    have hread := readBinary_gives hinner opening op hwf.2.1 hwf.2.2 hle
    -- of the primitives of two operands only `cons` has a keyword
    by_cases hcons : op = .cons
    · subst hcons
      exact readCompound_gives_keyword hread
    · exact readCompound_gives_binary hwf.1 hcons hread
  | ifElse c t e => exact hspecial fun opening => readIf_gives hinner opening hwf hle
  | lambda params body => exact hspecial fun opening => readLambda_gives hinner opening hwf hle
  | letIn bindings body => exact hspecial fun opening => readLet_gives hinner opening hwf hle
  | letrec bindings body => exact hspecial fun opening => readLetrec_gives hinner opening hwf hle
  | sequence forms => exact hspecial fun opening => readBegin_gives hinner opening hwf hle
  | app function args =>
    refine hparens fun opening => ?_
    -- `(null)` is a call, and the one whose first token is a keyword
    by_cases hnull : function = .null
    · subst hnull
      rw [Term.nesting, Nat.add_le_add_iff_right] at hle
      exact readCompound_gives_keyword (readCall_gives hinner opening _ hwf.2 hle)
    · rw [Term.nesting, Nat.add_le_add_iff_right] at hle
      · exact readCompound_gives_call hinner opening hnull hwf.1 hwf.2 hle
      · exact hnull

end

theorem readers_complete (level : Nat) : (readers level).Complete level := by
  induction level with
  | zero =>
    refine ⟨fun {_ t} _ _ hle => ?_, fun {d} _ hle => ?_, fun {_ t} _ _ hle => ?_⟩
    · exact absurd hle (Nat.not_le_of_gt t.nesting_pos)
    · exact absurd hle (Nat.not_le_of_gt d.nesting_pos)
    · exact absurd hle (Nat.not_le_of_gt t.nesting_pos)
  | succ level ih =>
    exact ⟨fun _ hwf hle => readForm_gives ih hwf hle, fun _ hle => readDatum_gives ih hle,
      fun _ hwf hle => readTemplate_gives ih hwf hle⟩

/-! ## Programs -/

/-- No expression starts like a definition. -/
theorem Term.kinds_ne_define (t : Term) (more kinds : List TokenKind) :
    t.kinds ++ more ≠ .leftParen :: .keyword .define :: kinds := by
  cases t with
  | literal l => cases l <;> nofun
  | app function args =>
    by_cases hnull : function = .null
    · subst hnull
      nofun
    -- behind the parenthesis stands the first token of the function, which is no keyword
    · obtain ⟨k, kinds', hkinds, hkeyword, -⟩ := Term.kinds_eq_cons hnull
      rw [Term.kinds, hkinds]
      intro h
      cases h
      exact hkeyword .define rfl
  | unary op t => cases op <;> nofun
  | binary op l r => cases op <;> nofun
  | _ => nofun

/-- A top-level form starts with a token that a form can start with. -/
theorem TopTerm.kinds_eq_cons (form : TopTerm) :
    ∃ k kinds, form.kinds = k :: kinds ∧ k ≠ .eof ∧ k ≠ .rightParen := by
  cases form with
  | value t =>
    cases t with
    | literal l => cases l <;> exact ⟨_, _, rfl, nofun, nofun⟩
    | _ => exact ⟨_, _, rfl, nofun, nofun⟩
  | defineVariable | defineFunction => exact ⟨_, _, rfl, nofun, nofun⟩

theorem Listing.formsWellFormed_append {globals : List String} {p q : Listing} :
    FormsWellFormed globals (p ++ q) ↔
      p.FormsWellFormed globals ∧ q.FormsWellFormed (globals ++ p.definedNames) := by
  induction p generalizing globals with
  | nil =>
    show _ ↔ True ∧ q.FormsWellFormed (globals ++ [])
    rw [List.append_nil, true_and]
    rfl
  | cons form p ih =>
    have hnames : definedNames (form :: p) = form.defined?.toList ++ definedNames p := by
      unfold definedNames
      rw [List.filterMap_cons]
      cases form.defined? <;> rfl
    show _ ∧ FormsWellFormed _ (p ++ q) ↔ (_ ∧ _) ∧ _
    rw [ih, hnames, List.append_assoc, and_assoc]

section
variable {inner : Readers} {level : Nat} {globals : List String} (hinner : inner.Complete level)
include hinner

theorem readDefinition_gives_variable {name : String} {t : Term} (opening : Span)
    (hwf : t.WellFormed { globals := globals ++ [name] }) (hle : t.nesting ≤ level) :
    Gives (readDefinition inner { globals } opening) (.identifier name :: (t.kinds ++ [.rightParen]))
      (TopForm.bare · = .defineVariable name t) := by
  refine .next_bind fun token htoken => ?_
  simp only [htoken]
  refine .position_bind fun blame => (hinner.form blame hwf hle).bind fun e he => ?_
  exact .expect_bind fun _ => .pure (congrArg (TopTerm.defineVariable name) he)

theorem readDefinition_gives_function {name : String} {params : List String} {body : List Term}
    (opening : Span) (hnodup : params.Nodup) (hne : body ≠ [])
    (hwf : WellFormedAll { locals := [params], globals := globals ++ [name] } body)
    (hle : termsNesting body ≤ level) :
    Gives (readDefinition inner { globals } opening)
      (nameKinds (name :: params) ++ (termKinds body ++ [.rightParen]))
      (TopForm.bare · = .defineFunction name params body) := by
  refine .next_bind fun token htoken => ?_
  simp only [htoken]
  refine .identifier_bind fun _ => (readParameters_gives hnodup).bind fun params' hparams => ?_
  subst hparams
  refine (readBody_gives hinner opening .define hwf hne hle).bind_last fun r hr => .pure ?_
  rw [TopForm.bare, bareAll_eq_map, hr]

omit hinner in
/-- A reader behind the opening of a definition reads a definition. -/
theorem readTopForm_gives_define {kinds : List TokenKind} {Good : TopForm → Prop}
    (h : ∀ opening, Gives (readDefinition inner { globals } opening) kinds Good) :
    Gives (readTopForm inner { globals }) (.leftParen :: .keyword .define :: kinds) Good := by
  intro f used rest hf hused
  obtain ⟨⟨_, opening⟩, behind, rfl, hopening, hbehind⟩ := List.map_eq_cons_iff.mp hused
  obtain ⟨⟨_, span⟩, tail, rfl, hdefine, htail⟩ := List.map_eq_cons_iff.mp hbehind
  cases hopening
  cases hdefine
  obtain ⟨form, f', hread, hfeed⟩ :=
    h opening { f with tokens := tail ++ rest, position := span.stop } tail rest rfl htail
  refine ⟨form, f', ?_, hfeed⟩
  have hget : (get : Read Feed) f = .ok (f, f) := rfl
  unfold readTopForm
  rw [bind_of_ok hget]
  simp only [hf, List.cons_append]
  rw [bind_of_ok (next_cons hf), bind_of_ok (next_cons rfl)]
  exact hread

theorem readTopForm_gives {form : TopTerm} (hwf : form.WellFormed globals)
    (hle : form.nesting ≤ level + 1) :
    Gives (readTopForm inner { globals }) form.kinds (TopForm.bare · = form) := by
  cases form with
  | value t =>
    intro f used rest hf hused
    have hform : Gives (do
        let t ← peek
        let e ← readForm inner { globals }
        return TopForm.value ⟨t.span.start, ← position⟩ e) t.kinds (TopForm.bare · = .value t) := by
      -- the first token is looked at for the span only
      have hread := readForm_gives hinner hwf hle
      obtain ⟨k, kinds, hkinds, -⟩ := TopTerm.kinds_eq_cons (.value t)
      rw [show t.kinds = k :: kinds from hkinds] at hread ⊢
      refine .peek_bind fun token _ => hread.bind_last fun e he => .position_bind fun stop => ?_
      exact .pure (congrArg TopTerm.value he)
    obtain ⟨form, f', hread, hfeed⟩ := hform f used rest hf hused
    refine ⟨form, f', ?_, hfeed⟩
    have hget : (get : Read Feed) f = .ok (f, f) := rfl
    unfold readTopForm
    rw [bind_of_ok hget]
    -- a value does not start like a definition, so its tokens take the other branch
    generalize htokens : f.tokens = tokens
    split
    next opening span tail =>
      rw [hf] at htokens
      have hkinds := congrArg (List.map Token.kind) htokens
      rw [List.map_append, hused] at hkinds
      exact absurd hkinds (Term.kinds_ne_define t _ _)
    next => exact hread
  | defineVariable name t =>
    rw [TopTerm.nesting, Nat.add_le_add_iff_right] at hle
    exact readTopForm_gives_define fun opening =>
      readDefinition_gives_variable hinner opening hwf hle
  | defineFunction name params body =>
    rw [TopTerm.nesting, Nat.add_le_add_iff_right] at hle
    obtain ⟨hnodup, hne, hbody⟩ := hwf
    have hread := fun opening =>
      readDefinition_gives_function hinner opening hnodup hne hbody hle
    simp only [← List.append_assoc] at hread
    exact readTopForm_gives_define hread

theorem tryTopForm_gives {form : TopTerm} (hwf : form.WellFormed globals)
    (hle : form.nesting ≤ level + 1) :
    Gives (tryTopForm inner { globals }) form.kinds (fun r => ∃ form', r =
      some (form', { globals := globals ++ form.defined?.toList }) ∧ form'.bare = form) := by
  have hread := readTopForm_gives hinner hwf hle
  obtain ⟨k, kinds, hkinds, heof, hclose⟩ := form.kinds_eq_cons
  rw [hkinds] at hread ⊢
  refine .peek_bind fun token htoken => ?_
  split
  next hk => exact absurd (htoken.symm.trans hk) heof
  next hk => exact absurd (htoken.symm.trans hk) hclose
  next =>
    refine hread.bind_last fun form' hform => .pure ⟨form', ?_, hform⟩
    rw [← hform, form'.defined?_bare, TopForm.elim_define]

end

/-- **A program of the language is read wherever it is written.** -/
theorem Program.exists_ofRun {globals : List String} {r : TokenRun} {p : Listing} {stop : Nat}
    (hp : p.WellFormed globals) (hkinds : r.tokens.map Token.kind = p.kinds)
    (hending : r.ending = .eof stop) : ∃ q, Program.ofRun globals r = .ok q ∧ q.bare = p := by
  have hinner := readers_complete (maxNesting - 1)
  have hparts := collect_gives (tryTopForm (readers (maxNesting - 1))) TopForm.bare
    (fun before => { globals := globals ++ Listing.definedNames before }) (fun _ => True)
    (fun before form after hforms => ?_)
    (fun form _ => by
      obtain ⟨k, kinds, hkinds, -⟩ := form.kinds_eq_cons
      rw [hkinds]
      exact List.cons_ne_nil k kinds)
    (f := .ofRun r) (List.append_nil _).symm hkinds (fun f₁ htokens hend => ?_)
  · obtain ⟨forms, f', hcollect, hmap, -⟩ := hparts
    -- an empty program is none of the language
    have hne : ¬ forms.isEmpty := by
      intro hnil
      rw [List.isEmpty_iff.mp hnil] at hmap
      exact hp.nonempty hmap.symm
    have hscope : ({ globals := globals ++ Listing.definedNames [] } : Scope) = { globals } := by
      rw [show Listing.definedNames [] = [] from rfl, List.append_nil]
    rw [hscope] at hcollect
    refine ⟨forms, ?_, hmap⟩
    have hread : readProgram (readers (maxNesting - 1)) { globals } (.ofRun r) = .ok (forms, f') := by
      rw [readProgram_def, bind_of_ok hcollect, if_neg hne]
      rfl
    unfold Program.ofRun StateT.run'
    rw [hread]
    rfl
  -- each form is well-formed under the globals of the run and the definitions before it
  · have hwf := hp.forms
    rw [hforms, Listing.formsWellFormed_append] at hwf
    have hle : form.nesting ≤ maxNesting := by
      refine hp.nesting form ?_
      rw [hforms]
      exact List.mem_append_right _ List.mem_cons_self
    have hnames : Listing.definedNames (before ++ [form]) =
        Listing.definedNames before ++ form.defined?.toList := by
      rw [Listing.definedNames, Listing.definedNames, List.filterMap_append, List.filterMap_cons]
      cases form.defined? <;> rfl
    rw [hnames, ← List.append_assoc]
    exact tryTopForm_gives hinner hwf.2.1 hle
  -- behind the last form stands the end of the source, and that ends the loop
  · have hpeek : peek f₁ = .ok (.ending stop, f₁) := by
      unfold peek
      rw [htokens, hend, Feed.ofRun, hending]
    refine ⟨f₁, ?_, trivial⟩
    unfold tryTopForm
    rw [bind_of_ok hpeek]
    rfl

end LispMachine
