import LispMachine.Proofs.Primitive

/-!
# Objects that are alike

Two runs of the same code have objects that are the same but for the frames that they name. What a
function in one run sees through its chain, the function in the other run has to see as well: their
chains have the same names, and their frames belong together link by link (`Meeting`). A link with few
names asks less of two frames than a link with many, because nothing is looked up behind its names. That
is what lets a function keep its meaning when later definitions lengthen the global frame.

Objects that are alike are printed and inspected the same (`Object.Alike.text_eq`,
`Object.Alike.inspect_eq`), and primitives give what is alike for what is alike, or the same error.
-/

namespace LispMachine

/-- Which frames of two runs belong together, for links with so many names. -/
abbrev Meeting := Nat → FrameId → FrameId → Prop

/-- Chains with the same names whose frames belong together. -/
inductive Chain.Alike (meets : Meeting) : Chain → Chain → Prop
  | nil : Alike meets [] []
  | cons {names : List String} {f₁ f₂ : FrameId} {c₁ c₂ : Chain} (first : meets names.length f₁ f₂)
      (rest : Alike meets c₁ c₂) : Alike meets (⟨names, f₁⟩ :: c₁) (⟨names, f₂⟩ :: c₂)

namespace Object

mutual
/-- Objects that are the same but for the frames in the chains of their functions, which belong
together. Their functions have bodies that can be evaluated in their chains. -/
inductive Alike (meets : Meeting) : Object → Object → Prop
  | number (n : Number) : Alike meets (.number n) (.number n)
  | string (text : String) : Alike meets (.string text) (.string text)
  | symbol (name : String) : Alike meets (.symbol name) (.symbol name)
  | list {xs ys : List Object} (items : AlikeAll meets xs ys) : Alike meets (.list xs) (.list ys)
  | closure {parens : Parens} {params : List String} {body : List Expr} {c₁ c₂ : Chain}
      (nonempty : body ≠ []) (isScoped : ScopedAll .anywhere (params :: c₁.names) body)
      (chains : c₁.Alike meets c₂) :
      Alike meets (.closure parens params body c₁) (.closure parens params body c₂)
/-- Lists of objects that are alike one by one. -/
inductive AlikeAll (meets : Meeting) : List Object → List Object → Prop
  | nil : AlikeAll meets [] []
  | cons {x y : Object} {xs ys : List Object} (first : Alike meets x y) (rest : AlikeAll meets xs ys) :
      AlikeAll meets (x :: xs) (y :: ys)
end

end Object

open Object (AlikeAll)

section
variable {meets meets' : Meeting}

/-! ## Chains -/

namespace Chain.Alike
variable {c₁ c₂ : Chain}

theorem names_eq (h : c₁.Alike meets c₂) : c₁.names = c₂.names := by
  induction h with
  | nil => rfl
  | cons _ _ ih => rw [names_cons, names_cons, ih]

theorem length_frames_eq (h : c₁.Alike meets c₂) : c₁.frames.length = c₂.frames.length := by
  rw [length_frames, length_frames, ← length_names, ← length_names, h.names_eq]

theorem mono (himp : ∀ {k f₁ f₂}, meets k f₁ f₂ → meets' k f₁ f₂) (h : c₁.Alike meets c₂) :
    c₁.Alike meets' c₂ := by
  induction h with
  | nil => exact .nil
  | cons first _ ih => exact .cons (himp first) ih

/-- A name is found at the same address, in frames that belong together for links which have that many
names at least. -/
theorem resolve (h : c₁.Alike meets c₂) {name : String} {a : Address}
    (hres : Scope.resolveIn name c₁.names = some a) :
    ∃ k f₁ f₂, c₁.frames[a.depth]? = some f₁ ∧ c₂.frames[a.depth]? = some f₂ ∧ a.offset < k ∧
      meets k f₁ f₂ := by
  induction h generalizing a with
  | nil => cases hres
  | @cons names f₁ f₂ c₁ c₂ first _ ih =>
    rw [names_cons, Scope.resolveIn] at hres
    cases hlast : lastIndex? name names with
    | some offset =>
      simp only [hlast] at hres
      cases hres
      -- the newest binding frame has the name, and its place is one that the link asks for
      exact ⟨names.length, f₁, f₂, rfl, rfl, lastIndex?_lt hlast, first⟩
    | none =>
      simp only [hlast] at hres
      obtain ⟨b, hb, rfl⟩ := Option.map_eq_some_iff.mp hres
      exact ih hb

end Chain.Alike

/-! ## Objects -/

namespace Object.AlikeAll
variable {xs ys : List Object}

theorem length_eq (h : AlikeAll meets xs ys) : xs.length = ys.length := by
  induction xs generalizing ys with
  | nil =>
    cases h
    rfl
  | cons x xs ih =>
    cases h with
    | cons _ rest => rw [List.length_cons, List.length_cons, ih rest]

theorem append {xs' ys' : List Object} (h : AlikeAll meets xs ys) (h' : AlikeAll meets xs' ys') :
    AlikeAll meets (xs ++ xs') (ys ++ ys') := by
  induction xs generalizing ys with
  | nil =>
    cases h
    exact h'
  | cons x xs ih =>
    cases h with
    | cons first rest => exact .cons first (ih rest)

theorem take (h : AlikeAll meets xs ys) (k : Nat) : AlikeAll meets (xs.take k) (ys.take k) := by
  induction xs generalizing ys k with
  | nil =>
    cases h
    rw [List.take_nil]
    exact .nil
  | cons x xs ih =>
    cases h with
    | cons first rest =>
      cases k with
      | zero => exact .nil
      | succ k => exact .cons first (ih rest k)

/-- At each place there are objects that are alike, or none. -/
theorem getElem? (h : AlikeAll meets xs ys) (i : Nat) :
    (∃ x y, xs[i]? = some x ∧ ys[i]? = some y ∧ x.Alike meets y) ∨ xs[i]? = none ∧ ys[i]? = none := by
  induction xs generalizing ys i with
  | nil =>
    cases h
    exact .inr ⟨rfl, rfl⟩
  | cons x xs ih =>
    cases h with
    | cons first rest =>
      cases i with
      | zero => exact .inl ⟨x, _, rfl, rfl, first⟩
      | succ i => exact ih rest i

end Object.AlikeAll

namespace Object.Alike

mutual
theorem mono (himp : ∀ {k f₁ f₂}, meets k f₁ f₂ → meets' k f₁ f₂) :
    ∀ {o₁ o₂ : Object}, o₁.Alike meets o₂ → o₁.Alike meets' o₂
  | _, _, .number n => .number n
  | _, _, .string text => .string text
  | _, _, .symbol name => .symbol name
  | _, _, .list items => .list (monoAll himp items)
  | _, _, .closure nonempty isScoped chains => .closure nonempty isScoped (chains.mono himp)
theorem monoAll (himp : ∀ {k f₁ f₂}, meets k f₁ f₂ → meets' k f₁ f₂) :
    ∀ {xs ys : List Object}, AlikeAll meets xs ys → AlikeAll meets' xs ys
  | _, _, .nil => .nil
  | _, _, .cons first rest => .cons (mono himp first) (monoAll himp rest)
end

theorem kind_eq {o₁ o₂ : Object} (h : o₁.Alike meets o₂) : o₁.kind = o₂.kind := by
  cases h with
  | list items => cases items <;> rfl
  | _ => rfl

theorem isTruthy_eq {o₁ o₂ : Object} (h : o₁.Alike meets o₂) : o₁.isTruthy = o₂.isTruthy := by
  cases h with
  | list items => cases items <;> rfl
  | _ => rfl

mutual
theorem depth_eq : ∀ {o₁ o₂ : Object}, o₁.Alike meets o₂ → o₁.depth = o₂.depth
  | _, _, .number _ | _, _, .string _ | _, _, .symbol _ | _, _, .closure .. => rfl
  | _, _, .list items => congrArg (· + 1) (depths_eq items)
theorem depths_eq : ∀ {xs ys : List Object}, AlikeAll meets xs ys → depths xs = depths ys
  | _, _, .nil => rfl
  | _, _, .cons first rest => by rw [depths, depths, depth_eq first, depths_eq rest]
end

mutual
/-- What is alike is printed the same. -/
theorem text_eq : ∀ {o₁ o₂ : Object}, o₁.Alike meets o₂ → o₁.image.text = o₂.image.text
  | _, _, .number _ | _, _, .string _ | _, _, .symbol _ | _, _, .closure .. => rfl
  | _, _, .list items => by rw [image, image, Value.text, Value.text, texts_eq items]
theorem texts_eq : ∀ {xs ys : List Object}, AlikeAll meets xs ys →
    Value.texts (images xs) = Value.texts (images ys)
  | _, _, .nil => rfl
  | _, _, .cons first rest => by
    rw [images, images, Value.texts, Value.texts, text_eq first, texts_eq rest]
end

mutual
/-- What is alike is inspected the same: a closure is shown with the number of its frames. -/
theorem inspect_eq : ∀ {o₁ o₂ : Object}, o₁.Alike meets o₂ → o₁.image.inspect = o₂.image.inspect
  | _, _, .number _ | _, _, .string _ | _, _, .symbol _ => rfl
  | _, _, .closure _ _ chains => by
    unfold image Value.inspect
    rw [chains.length_frames_eq]
  | _, _, .list items => by
    unfold image Value.inspect
    rw [inspects_eq items]
theorem inspects_eq : ∀ {xs ys : List Object}, AlikeAll meets xs ys →
    Value.inspects (images xs) = Value.inspects (images ys)
  | _, _, .nil => rfl
  | _, _, .cons first rest => by
    rw [images, images, Value.inspects, Value.inspects, inspect_eq first, inspects_eq rest]
end

theorem ofLiteral (l : Literal) : (Object.ofLiteral l).Alike meets (.ofLiteral l) := by
  cases l with
  | number n => exact .number n
  | boolean b => exact .number _
  | string text => exact .string text

mutual
/-- Data are alike in every run. -/
theorem ofDatum : ∀ d : Datum, (Object.ofDatum d).Alike meets (.ofDatum d)
  | .literal l => ofLiteral l
  | .word w => .symbol w.name
  | .list items => .list (ofData items)
  | .marked mark datum => .list (.cons (.symbol mark.name) (.cons (ofDatum datum) .nil))
theorem ofData : ∀ ds : List Datum, AlikeAll meets (Object.ofData ds) (Object.ofData ds)
  | [] => .nil
  | d :: ds => .cons (ofDatum d) (ofData ds)
end

end Object.Alike

/-! ## Primitives -/

/-- Two computations that give objects which are alike, or fail with the same error. -/
inductive ResultsAlike (meets : Meeting) : Except RuntimeError Object → Except RuntimeError Object → Prop
  | ok {o₁ o₂ : Object} (objects : o₁.Alike meets o₂) : ResultsAlike meets (.ok o₁) (.ok o₂)
  | error (e : RuntimeError) : ResultsAlike meets (.error e) (.error e)

section
variable {o₁ o₂ : Object}

theorem Object.asNumber_alike (h : o₁.Alike meets o₂) (op : Opcode) : o₁.asNumber op = o₂.asNumber op := by
  cases h with
  | list items => cases items <;> rfl
  | _ => rfl

/-- Both objects are lists, and their items are alike, or neither is. -/
theorem Object.asList_alike (h : o₁.Alike meets o₂) (op : Opcode) :
    (∃ xs ys, o₁.asList op = .ok xs ∧ o₂.asList op = .ok ys ∧ AlikeAll meets xs ys) ∨
    ∃ e, o₁.asList op = .error e ∧ o₂.asList op = .error e := by
  cases h with
  | list items => exact .inl ⟨_, _, rfl, rfl, items⟩
  | _ => exact .inr ⟨_, rfl, rfl⟩

theorem UnaryOp.apply_alike (op : UnaryOp) (h : o₁.Alike meets o₂) :
    ResultsAlike meets (op.apply o₁) (op.apply o₂) := by
  cases op with
  | consp =>
    rw [UnaryOp.apply, UnaryOp.apply, h.kind_eq]
    exact .ok (.number _)
  | car =>
    rw [UnaryOp.apply, UnaryOp.apply]
    rcases Object.asList_alike h .car with ⟨xs, ys, hx, hy, items⟩ | ⟨e, hx, hy⟩
    · rw [hx, hy]
      cases items with
      | nil => exact .error _
      | cons first _ => exact .ok first
    · rw [hx, hy]
      exact .error e
  | cdr =>
    rw [UnaryOp.apply, UnaryOp.apply]
    rcases Object.asList_alike h .cdr with ⟨xs, ys, hx, hy, items⟩ | ⟨e, hx, hy⟩
    · rw [hx, hy]
      cases items with
      | nil => exact .error _
      | cons _ rest => exact .ok (.list rest)
    · rw [hx, hy]
      exact .error e

variable {p₁ p₂ : Object}

theorem Object.numeric_alike (ho : o₁.Alike meets o₂) (hp : p₁.Alike meets p₂) (op : Opcode)
    (f : Number → Number → Except RuntimeError Number) :
    ResultsAlike meets (Object.numeric op f o₁ p₁) (Object.numeric op f o₂ p₂) := by
  rw [Object.numeric, Object.numeric, Object.asNumber_alike ho, Object.asNumber_alike hp]
  cases o₂.asNumber op with
  | error e => exact .error e
  | ok a =>
    cases p₂.asNumber op with
    | error e => exact .error e
    | ok b =>
      show ResultsAlike meets (f a b >>= _) (f a b >>= _)
      cases f a b with
      | error e => exact .error e
      | ok c => exact .ok (.number c)

theorem BinaryOp.apply_alike (op : BinaryOp) (ho : o₁.Alike meets o₂) (hp : p₁.Alike meets p₂) :
    ResultsAlike meets (op.apply o₁ p₁) (op.apply o₂ p₂) := by
  cases op with
  | cons =>
    rw [BinaryOp.apply, BinaryOp.apply]
    rcases Object.asList_alike hp .cons with ⟨xs, ys, hx, hy, items⟩ | ⟨e, hx, hy⟩
    · rw [hx, hy]
      show ResultsAlike meets (o₁.prepend xs >>= _) (o₂.prepend ys >>= _)
      rw [Object.prepend, Object.prepend, ho.depth_eq]
      by_cases hdepth : o₂.depth < maxDataDepth
      · rw [if_pos hdepth, if_pos hdepth]
        exact .ok (.list (.cons ho items))
      · rw [if_neg hdepth, if_neg hdepth]
        exact .error _
    · rw [hx, hy]
      exact .error e
  | operator o => exact Object.numeric_alike ho hp _ _
  | and => exact Object.numeric_alike ho hp _ _
  | or => exact Object.numeric_alike ho hp _ _

end

end

end LispMachine
