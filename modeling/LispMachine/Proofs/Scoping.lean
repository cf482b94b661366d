import LispMachine.Form
import LispMachine.Form.Complaint
import LispMachine.Proofs.Meaning

/-!
# Scoped trees

A tree is scoped in a chain of names when each of its variables carries the address that its name
resolves to there, no body in it is empty, and names are never nested deeper than forms can be. This
is what the reader establishes (`LispMachine.Proofs.Reading`) and what evaluation and code generation
rely on.

The predicate also asks each variable for a fact about its span and the number of frames of its chain
(`site`). It is trivial for the trees that are read; trees whose variables are marked with that number
satisfy a sharper one.

The address of a name is the place where it stands last in the innermost frame that has it
(`Scope.resolveIn_eq_some_iff`). An address that was resolved in the names of a chain leads to the frame in
which evaluation finds the name (`Chain.find?_of_resolveIn`).
-/

namespace LispMachine

/-- A condition on the span of a variable and the number of frames of its chain. -/
abbrev Site := Span → Nat → Prop

/-- The condition that every variable meets. -/
def Site.anywhere : Site := fun _ _ => True

section
variable (site : Site)

mutual
/-- Every variable of an expression is resolved in the given names, and no body is empty. -/
def Expr.Scoped (names : List (List String)) : Expr → Prop
  | .literal .. | .null _ | .quote .. | .quoteForm .. => True
  | .var span name address =>
    Scope.resolveIn name names = some address ∧ names.length ≤ maxNesting ∧ site span names.length
  | .quasi _ template => template.Scoped names
  | .unary _ _ operand => operand.Scoped names
  | .binary _ _ left right => left.Scoped names ∧ right.Scoped names
  | .ifElse _ condition consequent alternative =>
    condition.Scoped names ∧ consequent.Scoped names ∧ alternative.Scoped names
  | .lambda _ params body => body ≠ [] ∧ ScopedAll (params :: names) body
  | .letIn _ bindings body =>
    ScopedInits names bindings ∧ body ≠ [] ∧ ScopedAll (bindings.map (·.1) :: names) body
  | .letrec _ bindings body =>
    ScopedInits (bindings.map (·.1) :: names) bindings ∧ body ≠ [] ∧
      ScopedAll (bindings.map (·.1) :: names) body
  | .sequence _ forms => forms ≠ [] ∧ ScopedAll names forms
  | .app _ function args => function.Scoped names ∧ ScopedAll names args
/-- Every one of some expressions is scoped. -/
def ScopedAll (names : List (List String)) : List Expr → Prop
  | [] => True
  | e :: es => e.Scoped names ∧ ScopedAll names es
/-- Every one of some initialisers is scoped. -/
def ScopedInits (names : List (List String)) : List (String × Expr) → Prop
  | [] => True
  | (_, e) :: rest => e.Scoped names ∧ ScopedInits names rest
/-- Every hole of a template is scoped. -/
def Template.Scoped (names : List (List String)) : Template → Prop
  | .hole e => e.Scoped names
  | .datum _ => True
  | .list _ items => ScopedTemplates names items
/-- Every hole of some templates is scoped. -/
def ScopedTemplates (names : List (List String)) : List Template → Prop
  | [] => True
  | t :: ts => t.Scoped names ∧ ScopedTemplates names ts
end

/-- A top-level form is scoped after the given global names. A definition adds its own name first. -/
def TopForm.Scoped (globals : List String) : TopForm → Prop
  | .value _ e => e.Scoped site [globals]
  | .defineVariable _ name e => e.Scoped site [globals ++ [name]]
  | .defineFunction _ name params body =>
    body ≠ [] ∧ ScopedAll site [params, globals ++ [name]] body

/-- Each form of a program is scoped after the names that stand before it. -/
def Program.Scoped : List String → Program → Prop
  | _, [] => True
  | globals, form :: rest =>
    form.Scoped site globals ∧ Program.Scoped (globals ++ form.defined?.toList) rest

variable {site}

theorem scopedAll_iff {names : List (List String)} {es : List Expr} :
    ScopedAll site names es ↔ ∀ e ∈ es, e.Scoped site names := by
  induction es with
  | nil => simp [ScopedAll]
  | cons e es ih => simp [ScopedAll, ih]

theorem scopedInits_iff {names : List (List String)} {bindings : List (String × Expr)} :
    ScopedInits site names bindings ↔ ∀ b ∈ bindings, b.2.Scoped site names := by
  induction bindings with
  | nil => simp [ScopedInits]
  | cons b bs ih => simp [ScopedInits, ih]

theorem scopedTemplates_iff {names : List (List String)} {ts : List Template} :
    ScopedTemplates site names ts ↔ ∀ t ∈ ts, t.Scoped site names := by
  induction ts with
  | nil => simp [ScopedTemplates]
  | cons t ts ih => simp [ScopedTemplates, ih]

end

/-! ## Addresses -/

/-- A name stands at an address of frames: it is there and at no later offset of that frame, and it is in no
frame further inward. -/
structure Scope.StandsAt (frames : List (List String)) (name : String) (a : Address) : Prop where
  last : ∃ names, frames[a.depth]? = some names ∧ names[a.offset]? = some name ∧
    name ∉ names.drop (a.offset + 1)
  innermost : ∀ names ∈ frames.take a.depth, name ∉ names

section
variable {name : String} {names : List String} {frames : List (List String)} {i : Nat} {a : Address}

theorem lastIndex?_eq_none_iff : lastIndex? name names = none ↔ name ∉ names := by
  induction names with
  | nil => simp [lastIndex?]
  | cons bound rest ih =>
    rw [lastIndex?, List.mem_cons, not_or, ← ih]
    cases lastIndex? name rest with
    | some j => simp
    | none => simp [eq_comm]

/-- The place of a name is its last occurrence. -/
theorem lastIndex?_eq_some_iff :
    lastIndex? name names = some i ↔ names[i]? = some name ∧ name ∉ names.drop (i + 1) := by
  induction names generalizing i with
  | nil => simp [lastIndex?]
  | cons bound rest ih =>
    rw [lastIndex?]
    have hrest := @ih
    -- an occurrence further back wins over the one in front, which the drop in the claim sees
    cases hlast : lastIndex? name rest with
    | some j =>
      have hmem : name ∈ rest := List.mem_of_getElem? (ih.mp hlast).1
      rw [hlast] at hrest
      cases i with
      | zero => simp [hmem]
      | succ k => simpa using @hrest k
    | none =>
      have hnot : name ∉ rest := lastIndex?_eq_none_iff.mp hlast
      rw [hlast] at hrest
      cases i with
      | zero => simp [hnot]
      | succ k => simpa using @hrest k

/-- The place of a name is one of the names. -/
theorem lastIndex?_lt (h : lastIndex? name names = some i) : i < names.length :=
  (List.getElem?_eq_some_iff.mp (lastIndex?_eq_some_iff.mp h).1).1

namespace Scope

theorem resolveIn_eq_none_iff : resolveIn name frames = none ↔ ∀ names ∈ frames, name ∉ names := by
  induction frames with
  | nil => simp [resolveIn]
  | cons names outer ih =>
    rw [resolveIn, List.forall_mem_cons, ← lastIndex?_eq_none_iff, ← ih]
    cases lastIndex? name names with
    | some offset => simp
    | none => simp

theorem standsAt_zero {offset : Nat} : StandsAt (names :: frames) name ⟨0, offset⟩ ↔
    lastIndex? name names = some offset := by
  rw [lastIndex?_eq_some_iff]
  constructor
  · rintro ⟨⟨names', hframe, hlast⟩, -⟩
    cases hframe
    exact hlast
  · exact fun hlast => ⟨⟨names, rfl, hlast⟩, nofun⟩

theorem standsAt_succ {depth offset : Nat} : StandsAt (names :: frames) name ⟨depth + 1, offset⟩ ↔
    name ∉ names ∧ StandsAt frames name ⟨depth, offset⟩ := by
  constructor
  · rintro ⟨hlast, hinner⟩
    rw [List.take_succ_cons, List.forall_mem_cons] at hinner
    exact ⟨hinner.1, hlast, hinner.2⟩
  · rintro ⟨hnot, hlast, hinner⟩
    refine ⟨hlast, ?_⟩
    rw [List.take_succ_cons, List.forall_mem_cons]
    exact ⟨hnot, hinner⟩

/-- The address of a name is the place where it stands. -/
theorem resolveIn_eq_some_iff : resolveIn name frames = some a ↔ StandsAt frames name a := by
  induction frames generalizing a with
  | nil =>
    refine ⟨nofun, ?_⟩
    rintro ⟨⟨_, hframe, -⟩, -⟩
    cases hframe
  | cons names outer ih =>
    obtain ⟨depth, offset⟩ := a
    rw [resolveIn]
    cases hlast : lastIndex? name names with
    | some last =>
      -- a frame that binds the name hides all frames further out
      have hmem : name ∈ names := List.mem_of_getElem? (lastIndex?_eq_some_iff.mp hlast).1
      cases depth with
      | zero => simp [standsAt_zero, hlast]
      | succ depth => simp [standsAt_succ, hmem]
    | none =>
      have hnot := lastIndex?_eq_none_iff.mp hlast
      cases depth with
      | zero => simp [standsAt_zero, hlast]
      | succ depth =>
        rw [standsAt_succ, ← ih]
        cases resolveIn name outer with
        | none => simp
        | some b =>
          obtain ⟨depth', offset'⟩ := b
          simp [hnot]

/-- An address lies in the chain that it was resolved in. -/
theorem depth_lt_of_resolveIn (h : resolveIn name frames = some a) : a.depth < frames.length := by
  obtain ⟨⟨_, hframe, -⟩, -⟩ := resolveIn_eq_some_iff.mp h
  exact (List.getElem?_eq_some_iff.mp hframe).1

end Scope

end

namespace Chain

@[simp] theorem names_cons (link : Link) (chain : Chain) :
    names (link :: chain) = link.names :: names chain := rfl

@[simp] theorem frames_cons (link : Link) (chain : Chain) :
    frames (link :: chain) = link.frame :: frames chain := rfl

@[simp] theorem length_names (chain : Chain) : chain.names.length = chain.length :=
  List.length_map Link.names

@[simp] theorem length_frames (chain : Chain) : chain.frames.length = chain.length :=
  List.length_map Link.frame

/-- An address that the names of a chain give leads to the frame that evaluation finds. -/
theorem find?_of_resolveIn {name : String} {chain : Chain} {a : Address}
    (h : Scope.resolveIn name chain.names = some a) :
    ∃ f, chain.find? name = some (a, f) ∧ chain.frames[a.depth]? = some f := by
  induction chain generalizing a with
  | nil => cases h
  | cons link outer ih =>
    rw [names_cons, Scope.resolveIn] at h
    rw [find?, frames_cons]
    cases hl : lastIndex? name link.names with
    | some offset =>
      rw [hl] at h
      cases h
      exact ⟨link.frame, rfl, rfl⟩
    | none =>
      rw [hl] at h
      obtain ⟨b, hb, rfl⟩ := Option.map_eq_some_iff.mp h
      obtain ⟨f, hf, hframe⟩ := ih hb
      refine ⟨f, ?_, ?_⟩
      · simp only [hf, Option.map_some]
      · rw [List.getElem?_cons_succ]
        exact hframe

end Chain

end LispMachine
