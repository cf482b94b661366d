import LispMachine.Form.Feed

/-!
# What readers take

A reader that gives something has taken tokens from the front of its feed (`Takes`), and the rest of the
feed is as it was. The lemmas here say it of the few moves that all readers are made of: the next
token, a token that is asked for, and items up to a closing parenthesis.

The loop of the reader ends where its step ends it, and never for lack of tries, because each item
takes a token (`collects_of_collect`).
-/

namespace LispMachine

open Read

/-- The feed behind tokens that stand at its front. -/
theorem Feed.skipTo_of_eq {f : Feed} {used rest : List Token} (h : f.tokens = used ++ rest) :
    f.skipTo rest = { f with tokens := rest, position := endOf f.position used } := by
  unfold Feed.skipTo
  rw [h, List.length_append, Nat.add_sub_cancel, List.take_left]

/-- Tokens of the given kinds were taken from a feed. -/
structure Takes (f : Feed) (kinds : List TokenKind) (f' : Feed) : Prop where
  feed : f' = f.skipTo f'.tokens
  tokens : ∃ used, f.tokens = used ++ f'.tokens ∧ used.map Token.kind = kinds

namespace Takes
variable {f f₁ f' : Feed} {kinds more : List TokenKind}

theorem of_used (used : List Token) (hused : f.tokens = used ++ f'.tokens)
    (hkinds : used.map Token.kind = kinds) (hending : f'.ending = f.ending)
    (hposition : f'.position = endOf f.position used) : Takes f kinds f' := by
  refine ⟨?_, used, hused, hkinds⟩
  rw [Feed.skipTo_of_eq hused, ← hending, ← hposition]

theorem ending (h : Takes f kinds f') : f'.ending = f.ending := by
  rw [h.feed]
  rfl

theorem refl (f : Feed) : Takes f [] f := of_used [] rfl rfl rfl rfl

theorem trans (h : Takes f kinds f₁) (hmore : Takes f₁ more f') : Takes f (kinds ++ more) f' := by
  obtain ⟨used, hused, hkinds⟩ := h.tokens
  obtain ⟨used', hused', hkinds'⟩ := hmore.tokens
  have hall : f.tokens = (used ++ used') ++ f'.tokens := by rw [hused, hused', List.append_assoc]
  refine of_used _ hall ?_ (hmore.ending.trans h.ending) ?_
  · rw [List.map_append, hkinds, hkinds']
  · rw [hmore.feed, Feed.skipTo_of_eq hused', h.feed, Feed.skipTo_of_eq hused]
    exact (List.foldl_append ..).symm

theorem length_lt (h : Takes f kinds f') (hne : kinds ≠ []) : f'.tokens.length < f.tokens.length := by
  obtain ⟨used, hused, rfl⟩ := h.tokens
  have hpos : 0 < used.length := List.length_pos_iff.mpr fun hnil => hne (by rw [hnil, List.map_nil])
  rw [hused, List.length_append]
  omega

end Takes

/-! ## Tokens -/

section
variable {α β σ : Type} {f f' : Feed}

theorem Read.bind_eq_ok {x : Read α} {g : α → Read β} {b : β} (h : (x >>= g) f = .ok (b, f')) :
    ∃ a f₁, x f = .ok (a, f₁) ∧ g a f₁ = .ok (b, f') := by
  have hbind : (x >>= g) f = x f >>= fun p => g p.1 p.2 := rfl
  rw [hbind] at h
  cases hx : x f with
  | error e =>
    rw [hx] at h
    cases h
  | ok p =>
    rw [hx] at h
    exact ⟨p.1, p.2, rfl, h⟩

theorem Read.bind_of_ok {α β : Type} {x : Read α} {g : α → Read β} {a : α} (h : x f = .ok (a, f')) :
    (x >>= g) f = g a f' := by
  have hbind : (x >>= g) f = x f >>= fun p => g p.1 p.2 := rfl
  rw [hbind, h]
  rfl

theorem Read.bind_of_error {α β : Type} {x : Read α} {g : α → Read β} {e : Fault}
    (h : x f = .error e) : (x >>= g) f = .error e := by
  have hbind : (x >>= g) f = x f >>= fun p => g p.1 p.2 := rfl
  rw [hbind, h]
  rfl

theorem Read.lookAhead_eq_ok {α : Type} {r : Read α} {a : α} (h : lookAhead r f = .ok (a, f')) :
    f' = f := by
  unfold lookAhead at h
  cases hr : r f with
  | error e =>
    rw [hr] at h
    cases h
  | ok p =>
    rw [hr] at h
    cases h
    rfl

theorem Read.next_cons {t : Token} {rest : List Token} {f : Feed} (h : f.tokens = t :: rest) :
    next f = .ok (t, { f with tokens := rest, position := t.span.stop }) := by
  unfold next
  rw [h]

theorem Read.next_eq_ok {t : Token} (h : next f = .ok (t, f')) :
    Takes f [t.kind] f' ∨ t.kind = .eof ∧ f' = f := by
  unfold next at h
  split at h
  next t' rest hending htokens =>
    cases h
    exact .inl (.of_used [t] htokens rfl rfl rfl)
  next => cases h; exact .inr ⟨rfl, rfl⟩
  next => cases h

theorem Read.takes_of_next {t : Token} {kind : TokenKind} (h : next f = .ok (t, f'))
    (hkind : t.kind = kind) (hne : kind ≠ .eof) : Takes f [kind] f' := by
  rcases next_eq_ok h with htakes | ⟨heof, -⟩
  · rw [← hkind]
    exact htakes
  · exact absurd (hkind.symm.trans heof) hne

/-- The token that is looked at is the next one. -/
theorem Read.peek_eq_ok {t : Token} (h : peek f = .ok (t, f')) :
    f' = f ∧ ∃ f₁, next f = .ok (t, f₁) := by
  unfold peek at h
  unfold next
  split at h
  next t' rest hending htokens => cases h; exact ⟨rfl, _, rfl⟩
  next htokens hending => cases h; exact ⟨rfl, _, rfl⟩
  next => cases h

theorem Read.position_eq_ok {p : Nat} (h : position f = .ok (p, f')) : f' = f := by
  cases h
  rfl

theorem Read.expect_eq_ok {kind : TokenKind} {expected : Expectation} {t : Token}
    (h : expect kind expected f = .ok (t, f')) (hne : kind ≠ .eof) : Takes f [kind] f' := by
  obtain ⟨t', f₁, hnext, h⟩ := bind_eq_ok h
  split at h
  next hkind =>
    cases h
    exact takes_of_next hnext hkind hne
  next => cases h

theorem Read.identifier_eq_ok {expected : Expectation} {name : String} {span : Span}
    (h : identifier expected f = .ok ((name, span), f')) : Takes f [.identifier name] f' := by
  obtain ⟨t, f₁, hnext, h⟩ := bind_eq_ok h
  cases hkind : t.kind with
  | identifier name' =>
    simp only [hkind] at h
    cases h
    exact takes_of_next hnext hkind nofun
  | _ =>
    simp only [hkind] at h
    cases h

/-! ## The loop -/

/-- Items that a step gives one after the other, up to where it gives none. -/
inductive Collects (step : σ → Read (Option (α × σ))) : σ → Feed → List α → Feed → Prop
  | done {s : σ} {f f' : Feed} (hstep : step s f = .ok (none, f')) : Collects step s f [] f'
  | item {s s' : σ} {f f₁ f' : Feed} {a : α} {as : List α} (hstep : step s f = .ok (some (a, s'), f₁))
      (hrest : Collects step s' f₁ as f') : Collects step s f (a :: as) f'

variable {step : σ → Read (Option (α × σ))} {s : σ} {as : List α}

/-- The loop goes on to where the step ends it, if each item takes a token. -/
theorem collects_of_collect (Inv : σ → Prop)
    (hless : ∀ {s f a s' f'}, Inv s → step s f = .ok (some (a, s'), f') →
      Inv s' ∧ f'.tokens.length < f.tokens.length)
    (hs : Inv s) (h : collect step s f = .ok (as, f')) : Collects step s f as f' := by
  have hfor : ∀ fuel s f as, Inv s → f.tokens.length < fuel →
      collectFor step fuel s f = .ok (as, f') → Collects step s f as f' := by
    intro fuel
    -- the tries outnumber the tokens, and each item uses up one of both
    induction fuel with
    | zero => intro s f as _ hlt; exact absurd hlt (Nat.not_lt_zero _)
    | succ fuel ih =>
      intro s f as hs hlt h
      obtain ⟨item, f₁, hstep, h⟩ := bind_eq_ok h
      cases item with
      | none =>
        cases h
        exact .done hstep
      | some item =>
        obtain ⟨as', f₂, hrest, h⟩ := bind_eq_ok h
        cases h
        obtain ⟨hs', hlt'⟩ := hless hs hstep
        exact .item hstep (ih _ _ _ hs' (Nat.lt_of_lt_of_le hlt' (Nat.le_of_lt_succ hlt)) hrest)
  obtain ⟨f₀, f₁, hget, h⟩ := bind_eq_ok h
  cases hget
  exact hfor _ s f as hs (Nat.lt_succ_self _) h

/-- Items that are given within the tries are collected. -/
theorem Collects.collectFor_eq (h : Collects step s f as f') {fuel : Nat} (hlt : as.length < fuel) :
    collectFor step fuel s f = .ok (as, f') := by
  induction h generalizing fuel with
  | done hstep =>
    cases fuel with
    | zero => cases hlt
    | succ fuel =>
      show (step _ _ >>= _) = _
      rw [hstep]
      rfl
  | item hstep _ ih =>
    cases fuel with
    | zero => cases hlt
    | succ fuel =>
      show (step _ _ >>= _) = _
      rw [hstep]
      show (collectFor step fuel _ _ >>= _) = _
      rw [ih (Nat.lt_of_succ_lt_succ hlt)]
      rfl

/-- What is collected takes the tokens of its items, and what the end of the loop takes. -/
theorem collect_eq_ok (kinds : α → List TokenKind) (last : List TokenKind) (Good : α → Prop)
    (Done : Feed → Prop)
    (hdone : ∀ {s f f'}, step s f = .ok (none, f') → Takes f last f' ∧ Done f')
    (hitem : ∀ {s f a s' f'}, step s f = .ok (some (a, s'), f') →
      Takes f (kinds a) f' ∧ kinds a ≠ [] ∧ Good a)
    (h : collect step s f = .ok (as, f')) :
    Takes f (as.flatMap kinds ++ last) f' ∧ (∀ a ∈ as, Good a) ∧ Done f' := by
  have hcollects := collects_of_collect (fun _ => True)
    (fun _ hstep => ⟨trivial, (hitem hstep).1.length_lt (hitem hstep).2.1⟩) trivial h
  -- the loop is gone from here on: the induction is on the items that it gave
  clear h
  induction hcollects with
  | done hstep =>
    obtain ⟨htakes, hfeed⟩ := hdone hstep
    exact ⟨htakes, List.forall_mem_nil _, hfeed⟩
  | item hstep _ ih =>
    obtain ⟨htakes, -, hgood⟩ := hitem hstep
    obtain ⟨htakes', hgoods, hfeed⟩ := ih
    refine ⟨?_, List.forall_mem_cons.mpr ⟨hgood, hgoods⟩, hfeed⟩
    rw [List.flatMap_cons, List.append_assoc]
    exact htakes.trans htakes'

/-- A try for an item sees the closing parenthesis and leaves it where it is, or reads an item. -/
theorem Read.untilClose_try {item : Nat → Read α} {r : Option (α × Unit)}
    (h : (do
      let t ← peek
      if t.kind = .rightParen then return none
      return some (← item t.span.start, ()) : Read (Option (α × Unit))) f = .ok (r, f')) :
    (r = none ∧ f' = f ∧ ∃ t f₁, next f = .ok (t, f₁) ∧ t.kind = .rightParen) ∨
    ∃ blame a, r = some (a, ()) ∧ item blame f = .ok (a, f') := by
  obtain ⟨t, f₁, hpeek, hrest⟩ := bind_eq_ok h
  obtain ⟨rfl, f₂, hnext⟩ := peek_eq_ok hpeek
  split at hrest
  next hclose =>
    cases hrest
    exact .inl ⟨rfl, rfl, t, f₂, hnext, hclose⟩
  next =>
    obtain ⟨a, f₃, hitem, hpure⟩ := bind_eq_ok hrest
    cases hpure
    exact .inr ⟨t.span.start, a, rfl, hitem⟩

/-- Items up to the closing parenthesis: each takes its tokens, and then the parenthesis is taken. -/
theorem Read.untilClose_eq_ok {item : Nat → Read α} {kinds : α → List TokenKind} (Good : α → Prop)
    (hitem : ∀ {blame f a f'}, item blame f = .ok (a, f') → Takes f (kinds a) f' ∧ kinds a ≠ [] ∧ Good a)
    {closing : Span} (h : untilClose item f = .ok ((as, closing), f')) :
    Takes f (as.flatMap kinds ++ [.rightParen]) f' ∧ ∀ a ∈ as, Good a := by
  obtain ⟨as', f₁, hcollect, hrest⟩ := bind_eq_ok h
  obtain ⟨t, f₂, hlast, hpure⟩ := bind_eq_ok hrest
  cases hpure
  have hparts := collect_eq_ok kinds [] Good
    (fun f' => ∃ t f₁, next f' = .ok (t, f₁) ∧ t.kind = .rightParen)
    (fun hstep => ?_) (fun hstep => ?_) hcollect
  · obtain ⟨htakes, hgood, t', f₃, hnext, hclose⟩ := hparts
    rw [hlast] at hnext
    cases hnext
    rw [List.append_nil] at htakes
    exact ⟨htakes.trans (takes_of_next hlast hclose nofun), hgood⟩
  · obtain ⟨-, rfl, hnext⟩ | ⟨_, _, hsome, _⟩ := untilClose_try hstep
    · exact ⟨.refl _, hnext⟩
    · cases hsome
  · obtain ⟨hnone, -⟩ | ⟨blame, a, hsome, hread⟩ := untilClose_try hstep
    · cases hnone
    · cases hsome
      exact hitem hread

end

end LispMachine
