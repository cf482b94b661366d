import LispMachine.Machine.Instruction
import LispMachine.Proofs.Image

/-!
# Primitives in the machine

The instruction of a primitive does with the images of objects what the primitive does with the
objects: it leaves the image of the result, or fails with the same error. The same holds of the
instructions that load a variable and that build a list.

All errors that arise here are about the data that a program works on (`RuntimeError.isOfData`), and
none is about the code that the machine executes. The operands are taken in the order of evaluation's
own checks, so that where both are of the wrong kind the same one is blamed.
-/

namespace LispMachine

/-- Whether an error is about the data of a program, and not about the shape of its code: a variable
without a value, a value of the wrong kind, or a result that does not fit. An operand in the code, the
condition of a branch and an argument list are never of the wrong kind. -/
def RuntimeError.isOfData : RuntimeError → Bool
  | offsetOutOfRange .. | overflow _ | divisionByZero | dataTooDeep .. => true
  | typeMismatch op expected _ =>
    match op with
    | .ld | .ldf | .sel | .rap => false
    | .ap => expected = .closure
    | _ => true
  | _ => false

/-- A computation in two parts fails in one of them. -/
theorem Except.bind_eq_error {ε α β : Type} {x : Except ε α} {f : α → Except ε β} {e : ε}
    (h : x >>= f = .error e) : x = .error e ∨ ∃ a, x = .ok a ∧ f a = .error e := by
  cases x with
  | error d =>
    cases h
    exact .inl rfl
  | ok a => exact .inr ⟨a, rfl, h⟩

/-- What is a result has one. -/
theorem Except.exists_of_isOk {ε α : Type} {x : Except ε α} (h : x.isOk) : ∃ a, x = .ok a := by
  cases x with
  | error e => cases h
  | ok a => exact ⟨a, rfl⟩

/-- What is a result that passes a test has one. -/
theorem Except.exists_of_any {ε α : Type} {x : Except ε α} {p : α → Bool} (h : x.toOption.any p) :
    ∃ a, x = .ok a ∧ p a := by
  cases x with
  | error e => cases h
  | ok a => exact ⟨a, rfl, h⟩

/-- A computation in two parts succeeds in both. -/
theorem Except.bind_eq_ok {ε α β : Type} {x : Except ε α} {f : α → Except ε β} {b : β}
    (h : x >>= f = .ok b) : ∃ a, x = .ok a ∧ f a = .ok b := by
  cases x with
  | error d => cases h
  | ok a => exact ⟨a, rfl, h⟩

/-- What is done to each result of a computation can be done in one go. -/
theorem Except.map_bind_pure {ε α β γ : Type} (x : Except ε α) (f : α → β) (g : β → γ) :
    (x.map f >>= fun b => pure (g b)) = x.map fun a => g (f a) := by
  cases x <;> rfl

/-! ## Errors

Which error a primitive gives depends on its operands, but it is about them in each case.
-/

theorem Object.asList_isOfData {op : Opcode} {o : Object} {e : RuntimeError}
    (hop : (RuntimeError.typeMismatch op .list o.kind).isOfData) (h : o.asList op = .error e) :
    e.isOfData := by
  cases o with
  | list items => cases h
  | _ =>
    cases h
    exact hop

theorem Object.asNumber_isOfData {op : Opcode} {o : Object} {e : RuntimeError}
    (hop : (RuntimeError.typeMismatch op .number o.kind).isOfData) (h : o.asNumber op = .error e) :
    e.isOfData := by
  cases o with
  | number n => cases h
  | _ =>
    cases h
    exact hop

theorem Object.prepend_isOfData {o : Object} {os : List Object} {e : RuntimeError}
    (h : o.prepend os = .error e) : e.isOfData := by
  rw [Object.prepend] at h
  split at h
  · cases h
  · cases h
    rfl

/-- A primitive of one operand fails only because of its operand. -/
theorem UnaryOp.apply_isOfData {op : UnaryOp} {o : Object} {e : RuntimeError}
    (h : op.apply o = .error e) : e.isOfData := by
  cases op with
  | consp => cases h
  | car | cdr =>
    cases o with
    | list items =>
      cases items with
      | nil => cases h; rfl
      | cons head tail => cases h
    | _ => cases h; rfl

theorem Operator.compute_isOfData {o : Operator} {a b : Number} {e : RuntimeError}
    (h : o.compute a b = .error e) : e.isOfData := by
  have overflow : ∀ {op : Opcode} {n : Option Number}, Number.orOverflow op n = .error e →
      e.isOfData := by
    intro op n hn
    cases n with
    | none => cases hn; rfl
    | some n => cases hn
  cases o with
  | add | sub | mul => exact overflow h
  | div =>
    rw [Operator.compute] at h
    split at h
    · cases h
      rfl
    · exact overflow h
  | eq | ne | lt | le | gt | ge => cases h

theorem Object.numeric_isOfData {op : Opcode} {f : Number → Number → Except RuntimeError Number}
    {left right : Object} {e : RuntimeError}
    (hop : ∀ k, (RuntimeError.typeMismatch op .number k).isOfData)
    (hf : ∀ a b, f a b = .error e → e.isOfData) (h : Object.numeric op f left right = .error e) :
    e.isOfData := by
  rcases Except.bind_eq_error h with h | ⟨a, -, h⟩
  · exact Object.asNumber_isOfData (hop _) h
  rcases Except.bind_eq_error h with h | ⟨b, -, h⟩
  · exact Object.asNumber_isOfData (hop _) h
  rcases Except.bind_eq_error h with h | ⟨n, -, h⟩
  · exact hf a b h
  · cases h

/-- A primitive of two operands fails only because of its operands. -/
theorem BinaryOp.apply_isOfData {op : BinaryOp} {left right : Object} {e : RuntimeError}
    (h : op.apply left right = .error e) : e.isOfData := by
  cases op with
  | cons =>
    rcases Except.bind_eq_error h with h | ⟨items, -, h⟩
    · exact Object.asList_isOfData rfl h
    rcases Except.bind_eq_error h with h | ⟨objects, -, h⟩
    · exact Object.prepend_isOfData h
    · cases h
  | operator o =>
    refine Object.numeric_isOfData (fun k => ?_) (fun a b => Operator.compute_isOfData) h
    cases o <;> rfl
  | and | or => exact Object.numeric_isOfData (fun k => rfl) (fun a b hf => by cases hf) h

/-! ## Results

A result is made of numbers and of the operands' parts, so that it is sound where the operands are.
-/

section
variable {site : Site} {bound : Nat}

theorem Object.asList_sound {op : Opcode} {o : Object} {items : List Object}
    (ho : o.Sound site bound) (h : o.asList op = .ok items) : ∀ i ∈ items, i.Sound site bound := by
  cases o with
  | list os =>
    cases h
    exact sound_list_iff.mp ho
  | _ => cases h

theorem Object.prepend_sound {o : Object} {os objects : List Object} (ho : o.Sound site bound)
    (hos : ∀ i ∈ os, i.Sound site bound) (h : o.prepend os = .ok objects) :
    ∀ i ∈ objects, i.Sound site bound := by
  rw [Object.prepend] at h
  split at h
  · cases h
    exact List.forall_mem_cons.mpr ⟨ho, hos⟩
  · cases h

theorem UnaryOp.apply_sound {op : UnaryOp} {o v : Object} (ho : o.Sound site bound)
    (h : op.apply o = .ok v) : v.Sound site bound := by
  cases op with
  | consp =>
    cases h
    trivial
  | car =>
    obtain ⟨items, hi, h⟩ := Except.bind_eq_ok h
    cases items with
    | nil => cases h
    | cons head tail =>
      cases h
      exact Object.asList_sound ho hi _ List.mem_cons_self
  | cdr =>
    obtain ⟨items, hi, h⟩ := Except.bind_eq_ok h
    cases items with
    | nil => cases h
    | cons head tail =>
      cases h
      exact sound_list_iff.mpr fun i hm => Object.asList_sound ho hi i (List.mem_cons_of_mem _ hm)

theorem Object.numeric_sound {op : Opcode} {f : Number → Number → Except RuntimeError Number}
    {left right v : Object} (h : Object.numeric op f left right = .ok v) : v.Sound site bound := by
  obtain ⟨a, -, h⟩ := Except.bind_eq_ok h
  obtain ⟨b, -, h⟩ := Except.bind_eq_ok h
  obtain ⟨n, -, h⟩ := Except.bind_eq_ok h
  cases h
  trivial

theorem BinaryOp.apply_sound {op : BinaryOp} {left right v : Object} (hl : left.Sound site bound)
    (hr : right.Sound site bound) (h : op.apply left right = .ok v) : v.Sound site bound := by
  cases op with
  | cons =>
    obtain ⟨items, hi, h⟩ := Except.bind_eq_ok h
    obtain ⟨objects, ho, h⟩ := Except.bind_eq_ok h
    cases h
    exact sound_list_iff.mpr (Object.prepend_sound hl (Object.asList_sound hr hi) ho)
  | operator | and | or => exact Object.numeric_sound h

end

/-! ## Operands on the stack -/

namespace Stack
variable (op : Opcode) (S : Stack)

theorem popList_image (o : Object) :
    Stack.popList op (o.image :: S) = (o.asList op).map fun items => (items.map Object.image, S) := by
  cases o with
  | list items => rw [Object.image_list]; rfl
  | _ => rfl

theorem popNumber_image (o : Object) :
    Stack.popNumber op (o.image :: S) = (o.asNumber op).map (·, S) := by
  cases o with
  | list items =>
    rw [Object.asNumber, ← Object.kind_image, Object.image_list]
    · rfl
    · exact fun _ h => nomatch h
  | _ => rfl

theorem popNumbers_image (left right : Object) :
    Stack.popNumbers op (left.image :: right.image :: S) = (do
      let a ← left.asNumber op
      let b ← right.asNumber op
      return (a, b, S)) := by
  rw [Stack.popNumbers, popNumber_image]
  cases left.asNumber op with
  | error e => rfl
  | ok a =>
    -- the left operand is on top, so its error is the one that shows
    show (Stack.popNumber op (right.image :: S) >>= fun p => pure (a, p.1, p.2)) = _
    rw [popNumber_image]
    cases right.asNumber op with
    | error e => rfl
    | ok b => rfl

end Stack

/-! ## Instructions -/

section
variable (S : Stack) (env : Environment) (C : Code) (D : List DumpEntry) (store : Store)

theorem arithmetic_image (op : Opcode) (f : Number → Number → Option Number) (left right : Object) :
    Registers.arithmetic ⟨left.image :: right.image :: S, env, C, D⟩ op f =
      (Object.numeric op (fun a b => Number.orOverflow op (f a b)) left right).map
        fun o => ⟨o.image :: S, env, C, D⟩ := by
  rw [Registers.arithmetic, Stack.popNumbers_image, Object.numeric]
  cases left.asNumber op with
  | error e => rfl
  | ok a =>
    cases right.asNumber op with
    | error e => rfl
    | ok b =>
      simp only [Except.bind, bind, pure, Except.pure]
      cases f a b <;> rfl

theorem compare_image (op : Opcode) (test : Number → Number → Bool) (left right : Object) :
    Registers.compare ⟨left.image :: right.image :: S, env, C, D⟩ op test =
      (Object.numeric op (fun a b => .ok (.ofBool (test a b))) left right).map
        fun o => ⟨o.image :: S, env, C, D⟩ := by
  rw [Registers.compare, Stack.popNumbers_image, Object.numeric]
  cases left.asNumber op with
  | error e => rfl
  | ok a =>
    cases right.asNumber op with
    | error e => rfl
    | ok b => rfl

/-- The instruction of a primitive of one operand does what the primitive does. -/
theorem perform_unary (op : UnaryOp) (o : Object) :
    perform op.opcode store ⟨o.image :: S, env, C, D⟩ =
      (op.apply o).map fun v => (⟨v.image :: S, env, C, D⟩, .keep) := by
  cases op with
  | consp =>
    show Except.ok (_, _) = _
    rw [Object.kind_image]
    rfl
  | car =>
    simp only [UnaryOp.opcode, perform, Stack.popPair, Stack.popList_image, UnaryOp.apply]
    cases o.asList .car with
    | error e => rfl
    | ok items => cases items <;> rfl
  | cdr =>
    simp only [UnaryOp.opcode, perform, Stack.popPair, Stack.popList_image, UnaryOp.apply]
    cases o.asList .cdr with
    | error e => rfl
    | ok items =>
      cases items with
      | nil => rfl
      | cons head tail =>
        show _ = Except.ok (_, _)
        rw [Object.image_list]
        rfl

/-- `CONS` looks how deep the head is, and at nothing else. -/
theorem perform_cons_list (head : Value) (tail : List Value) :
    perform .cons store ⟨head :: .list tail :: S, env, C, D⟩ =
      if maxDataDepth ≤ head.depth then .error (.dataTooDeep .cons maxDataDepth)
      else .ok (⟨.list (head :: tail) :: S, env, C, D⟩, .keep) := by
  show (if maxDataDepth ≤ head.depth then throw _ else _ : Except RuntimeError _) = _
  split <;> rfl

/-- `CONS` puts the top of the stack before the items of the list below it. -/
theorem perform_cons (head tail : Object) :
    perform .cons store ⟨head.image :: tail.image :: S, env, C, D⟩ = (do
      let items ← tail.asList .cons
      let objects ← head.prepend items
      return (⟨Object.image (.list objects) :: S, env, C, D⟩, .keep)) := by
  simp only [perform, Stack.pop, bind, Except.bind, Stack.popList_image]
  cases tail.asList .cons with
  | error e => rfl
  | ok items =>
    simp only [Except.map, Object.depth_image, Object.prepend]
    by_cases hd : head.depth < maxDataDepth
    · rw [if_neg (Nat.not_le.mpr hd), if_pos hd]
      simp only [Object.image_list]
      rfl
    · rw [if_pos (Nat.not_lt.mp hd), if_neg hd]
      rfl

/-- The instruction of a primitive of two operands does what the primitive does. -/
theorem perform_binary (op : BinaryOp) (left right : Object) :
    perform op.opcode store ⟨left.image :: right.image :: S, env, C, D⟩ =
      (op.apply left right).map fun v => (⟨v.image :: S, env, C, D⟩, .keep) := by
  cases op with
  | cons =>
    rw [BinaryOp.opcode, perform_cons, BinaryOp.apply]
    cases right.asList .cons with
    | error e => rfl
    | ok items =>
      show (left.prepend items >>= _) = Except.map _ (left.prepend items >>= _)
      cases left.prepend items <;> rfl
  | operator o =>
    cases o with
    -- division looks at its second operand again before it computes, so it is unfolded by itself
    | div =>
      simp only [BinaryOp.opcode, perform, arithmetic_image, Stack.popNumbers_image, BinaryOp.apply,
        Object.numeric, Operator.compute]
      cases left.asNumber .div with
      | error e => rfl
      | ok a =>
        cases right.asNumber .div with
        | error e => rfl
        | ok b =>
          simp only [bind, Except.bind, pure, Except.pure]
          by_cases hb : b = 0
          · rw [if_pos hb, if_pos hb]
            rfl
          · rw [if_neg hb, if_neg hb]
            cases Number.div? a b <;> rfl
    | add | sub | mul =>
      simp only [BinaryOp.opcode, perform, arithmetic_image]
      exact Except.map_bind_pure _ _ _
    | eq | ne | lt | le | gt | ge =>
      simp only [BinaryOp.opcode, perform, compare_image]
      exact Except.map_bind_pure _ _ _
  | and | or =>
    simp only [BinaryOp.opcode, perform, compare_image]
    exact Except.map_bind_pure _ _ _

end

/-! ## Variables -/

/-- An index is the number that it is, as far as numbers go. -/
theorem Number.toInt_ofIndex (i : Nat) :
    (Number.ofIndex i).toInt = ((min i Number.greatest.toNat : Nat) : Int) := by
  have hgreatest : Number.greatest.toNat = 9223372036854775807 := rfl
  rw [Number.ofIndex, Number.ofInt?]
  split
  next h =>
    rw [Option.getD_some, Int64.toInt_ofInt_of_le]
    all_goals
      simp only [Number.least, Number.greatest] at h
      omega
  next h =>
    have hbig : Number.greatest.toNat ≤ i := by
      simp only [Number.least, Number.greatest] at h ⊢
      omega
    rw [Option.getD_none, Nat.min_eq_right hbig]
    rfl

/-- The depth of an address in names that are nested no deeper than forms can be is a number. -/
theorem Scope.toInt_depth {name : String} {names : List (List String)} {a : Address}
    (hres : resolveIn name names = some a) (hlen : names.length ≤ maxNesting) :
    (Number.ofIndex a.depth).toInt = a.depth := by
  have hlt := depth_lt_of_resolveIn hres
  have hgreatest : Number.greatest.toNat = 9223372036854775807 := rfl
  have hmax : maxNesting = 64 := rfl
  rw [Number.toInt_ofIndex, Nat.min_eq_left (by omega)]

/-- What numbers load from an environment is what stands in the frame at the place that they give. -/
theorem Store.load_of_toInt {store : Store} {env : Environment} {depth offset : Number} {d o : Nat} {f : FrameId}
    (hdepth : depth.toInt = d) (hoffset : offset.toInt = o) (hframe : env[d]? = some f) :
    store.load env depth offset =
      match store.get? f o with
      | some v => .ok v
      | none => .error (.offsetOutOfRange d o (store.contents f).length) := by
  have hnat : ∀ n : Nat, ¬ (n : Int) < 0 := fun n => Int.not_lt.mpr (Int.natCast_nonneg n)
  simp only [load, hdepth, hoffset, hnat, or_self, if_false, Int.toNat_natCast, hframe]
  cases store.get? f o <;> rfl

/-- `LD` pushes what it loads. -/
theorem perform_ld (store : Store) (S : Stack) (env : Environment) (depth offset : Number) (C : Code)
    (D : List DumpEntry) :
    perform .ld store ⟨S, env, .number depth :: .number offset :: C, D⟩ =
      (store.load env depth offset).map fun v => (⟨v :: S, env, C, D⟩, .keep) := by
  simp only [perform, Code.number, Code.operand, bind, Except.bind]
  cases store.load env depth offset <;> rfl

/-- A variable that is loaded from its address is the object that evaluation finds under its name. -/
theorem load_image {name : String} {chain : Chain} {a : Address}
    (hres : Scope.resolveIn name chain.names = some a) (hlen : chain.names.length ≤ maxNesting)
    (h : Heap) :
    (∃ o, Evaluation.lookup chain name h = .ok (o, h) ∧
      h.image.load chain.frames (.ofIndex a.depth) (.ofIndex a.offset) = .ok o.image ∧
      ∃ f, o ∈ h.contents f) ∨
    ∃ e, Evaluation.lookup chain name h = .error (.failed e) ∧ e.isOfData ∧
      h.image.load chain.frames (.ofIndex a.depth) (.ofIndex a.offset) = .error e := by
  obtain ⟨f, hfind, hframe⟩ := Chain.find?_of_resolveIn hres
  rw [Store.load_of_toInt (Scope.toInt_depth hres hlen) (Number.toInt_ofIndex a.offset) hframe]
  simp only [Store.get?, Heap.contents_image, List.getElem?_map, Evaluation.lookup, hfind]
  cases ho : (h.contents f)[min a.offset Number.greatest.toNat]? with
  | some o => exact .inl ⟨o, rfl, rfl, f, List.mem_of_getElem? ho⟩
  -- the name is in scope, but its definition has not been evaluated yet
  | none => exact .inr ⟨_, rfl, rfl, by rw [List.length_map]; rfl⟩

end LispMachine
