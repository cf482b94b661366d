import LispMachine.Proofs.Stage

/-!
# Compiled code does what its expression means

The code of an expression, executed in front of any code and on top of any stack, leaves the image of
the object that the expression evaluates to, and changes nothing else (`computes_expr`). Where
evaluation fails, the machine comes to an instruction that fails with the same error. Where
evaluation runs out of fuel, the machine has made as many steps as there was fuel, so that fuel
without end means a run without end.

`Simulates` says this of a single evaluation and the stage that the machine is in. It is composed the
way evaluations are: `Simulates.bind` for one evaluation after the other, and `Simulates.of_step` for
an instruction. Both directions of the agreement between machine and meaning are read off it.

There are two inductions. The one on expressions takes for granted that calls are simulated (`Applies`), and
has one lemma for each form of code. The one on fuel provides the calls: evaluation spends one unit of fuel
for a call, and the machine the step of `AP`, so the body is simulated with less (`applies_applyWith`).
-/

namespace LispMachine

section
variable {setting : Setting} {α β : Type}

/-- The machine goes from a stage where evaluation goes from its heap: to the stage that belongs to the
result, to an instruction that fails with the error of the evaluation, or through more steps than
there was fuel. The result satisfies a condition. -/
def Simulates (setting : Setting) (fuel : Nat) (x : Evaluation α) (c : Control) (h : Heap)
    (finish : α → Control) (Good : α → Heap → Prop) : Prop :=
  match x h with
  | .ok (a, h') => (∃ k, Steps setting k c h (finish a) h') ∧ h'.Sound setting.site ∧ Good a h'
  | .error (.failed e) => ∃ k c' h', Steps setting k c h c' h' ∧ Fails setting c' h' e
  | .error .exhausted => ∃ k c' h', fuel ≤ k ∧ Steps setting k c h c' h'
  | .error .senseless => False

namespace Simulates
variable {fuel : Nat} {c c' : Control} {h h' : Heap} {finish : α → Control}
  {Good : α → Heap → Prop}

/-- An evaluation that is nothing but its result needs no step. -/
theorem pure {a : α} (hc : c = finish a) (hs : h.Sound setting.site) (hgood : Good a h) :
    Simulates setting fuel (Pure.pure a) c h finish Good :=
  ⟨⟨0, hc ▸ .refl _ _⟩, hs, hgood⟩

/-- One step, and then what is simulated from there on. -/
theorem of_step {x y : Evaluation α} (hxy : x h = y h') (first : Step setting c h c' h')
    (rest : Simulates setting fuel y c' h' finish Good) :
    Simulates setting (fuel + 1) x c h finish Good := by
  unfold Simulates at rest ⊢
  rw [hxy]
  split at rest
  next a h'' _ =>
    obtain ⟨⟨k, hk⟩, hrest⟩ := rest
    exact ⟨⟨k + 1, .head first hk⟩, hrest⟩
  next e _ =>
    obtain ⟨k, c'', h'', hk, hfails⟩ := rest
    exact ⟨k + 1, c'', h'', .head first hk, hfails⟩
  next =>
    obtain ⟨k, c'', h'', hle, hk⟩ := rest
    exact ⟨k + 1, c'', h'', Nat.succ_le_succ hle, .head first hk⟩
  next => exact rest.elim

/-- A simulation with more fuel is one with less. -/
theorem less {n : Nat} {x : Evaluation α} (hle : n ≤ fuel)
    (hx : Simulates setting fuel x c h finish Good) : Simulates setting n x c h finish Good := by
  unfold Simulates at hx ⊢
  split at hx
  next => exact hx
  next => exact hx
  next =>
    obtain ⟨k, c', h', hk, hs⟩ := hx
    exact ⟨k, c', h', Nat.le_trans hle hk, hs⟩
  next => exact hx.elim

/-- A step that the fuel need not count. -/
theorem step {x y : Evaluation α} (hxy : x h = y h') (first : Step setting c h c' h')
    (rest : Simulates setting fuel y c' h' finish Good) :
    Simulates setting fuel x c h finish Good :=
  (of_step hxy first rest).less (Nat.le_succ _)

/-- One evaluation after the other. -/
theorem bind {x : Evaluation α} {f : α → Evaluation β} {finish' : β → Control}
    {Good' : β → Heap → Prop} (hx : Simulates setting fuel x c h finish Good)
    (hf : ∀ a h', h.size ≤ h'.size → h'.Sound setting.site → Good a h' →
      Simulates setting fuel (f a) (finish a) h' finish' Good') :
    Simulates setting fuel (x >>= f) c h finish' Good' := by
  unfold Simulates at hx ⊢
  -- where the first evaluation stops short, so does the machine, and the second is never come to
  have hbind : (x >>= f) h = x h >>= fun p => f p.1 p.2 := rfl
  rw [hbind]
  split at hx
  next a h' hy =>
    obtain ⟨⟨k, hk⟩, hs, hgood⟩ := hx
    have hrest := hf a h' hk.size_le hs hgood
    unfold Simulates at hrest
    have hrun : (Except.ok (a, h') >>= fun p : α × Heap => f p.1 p.2) = f a h' := rfl
    rw [hy, hrun]
    split at hrest
    next =>
      obtain ⟨⟨l, hl⟩, hrest⟩ := hrest
      exact ⟨⟨k + l, hk.trans hl⟩, hrest⟩
    next =>
      obtain ⟨l, c'', h'', hl, hfails⟩ := hrest
      exact ⟨k + l, c'', h'', hk.trans hl, hfails⟩
    next =>
      obtain ⟨l, c'', h'', hle, hl⟩ := hrest
      exact ⟨k + l, c'', h'', Nat.le_trans hle (Nat.le_add_left _ _), hk.trans hl⟩
    next => exact hrest.elim
  next hy =>
    rw [hy]
    exact hx
  next hy =>
    rw [hy]
    exact hx
  next => exact hx.elim

/-- The condition on the result can be weakened. -/
theorem imp {x : Evaluation α} {Good' : α → Heap → Prop}
    (hx : Simulates setting fuel x c h finish Good)
    (himp : ∀ a h', (∃ k, Steps setting k c h (finish a) h') → Good a h' → Good' a h') :
    Simulates setting fuel x c h finish Good' := by
  unfold Simulates at hx ⊢
  split at hx
  next => exact ⟨hx.1, hx.2.1, himp _ _ hx.1 hx.2.2⟩
  next => exact hx
  next => exact hx
  next => exact hx.elim

/-- One more step behind an evaluation. -/
theorem then_step {x : Evaluation α} {finish' : α → Control}
    (hx : Simulates setting fuel x c h finish Good)
    (last : ∀ a h', h'.Sound setting.site → Step setting (finish a) h' (finish' a) h') :
    Simulates setting fuel x c h finish' Good := by
  have hpure : x >>= Pure.pure = x := bind_pure x
  rw [← hpure]
  refine bind hx fun a h' _ hs hgood => ?_
  exact step rfl (last a h' hs) (pure rfl hs hgood)

end Simulates

/-! ## Instructions

The steps of compiled code, one lemma for each instruction that it executes. Each starts at a stage where the
stack has what the instruction takes, which is the image of what evaluation has at that point.
-/

section
variable {fuel : Nat} {op : Opcode} {origin : Option Span} {S : Stack} {env : Environment} {C : Code}
  {D : List DumpEntry} {w w' : List FrameId} {h h' : Heap}

/-- An instruction that can be performed is a step, if it changes the heap as a step may. -/
theorem Step.of_perform {r : Registers} {effect : Effect}
    (hp : perform op h.image ⟨S, env, C, D⟩ = .ok (r, effect))
    (hc : Change setting op effect h w h' w') (hs : h'.Sound setting.site)
    (hsited : Control.Sited setting.site ⟨⟨S, env, .op op origin :: C, D⟩, w⟩) :
    Step setting ⟨⟨S, env, .op op origin :: C, D⟩, w⟩ h ⟨r, w'⟩ h' := by
  refine ⟨⟨⟨op, origin, r, effect⟩, ?_, rfl, hc⟩, hsited, hs⟩
  simp only [Control.machine, Machine.next, hp]

/-- An instruction that leaves the heap alone. -/
theorem Step.keep {r : Registers} (hop : op ≠ .ld)
    (hp : perform op h.image ⟨S, env, C, D⟩ = .ok (r, .keep)) (hs : h.Sound setting.site) :
    Step setting ⟨⟨S, env, .op op origin :: C, D⟩, w⟩ h ⟨r, w⟩ h :=
  .of_perform hp .keep hs (.of_ne hop)

/-- An instruction that fails as evaluation does. -/
theorem Simulates.fail {x : Evaluation α} {finish : α → Control} {Good : α → Heap → Prop}
    {e : RuntimeError} (hx : x h = .error (.failed e)) (he : e.isOfData)
    (hp : perform op h.image ⟨S, env, C, D⟩ = .error e)
    (hsited : Control.Sited setting.site ⟨⟨S, env, .op op origin :: C, D⟩, w⟩) :
    Simulates setting fuel x ⟨⟨S, env, .op op origin :: C, D⟩, w⟩ h finish Good := by
  unfold Simulates
  rw [hx]
  refine ⟨0, _, _, .refl _ _, ?_, he, hsited⟩
  simp only [Control.machine, Machine.next, hp]

/-- An instruction that does what a function on objects does. -/
theorem Simulates.lift {S' : Stack} {view : α → Object} {t : Except RuntimeError α}
    {Good : α → Heap → Prop} (hop : op ≠ .ld)
    (hp : perform op h.image ⟨S', env, C, D⟩ =
      t.map fun a => (⟨(view a).image :: S, env, C, D⟩, .keep))
    (hs : h.Sound setting.site) (herror : ∀ e, t = .error e → e.isOfData)
    (hgood : ∀ a, t = .ok a → Good a h) :
    Simulates setting fuel (Evaluation.lift t) ⟨⟨S', env, .op op origin :: C, D⟩, w⟩ h
      (fun a => ⟨⟨(view a).image :: S, env, C, D⟩, w⟩) Good := by
  cases t with
  | error e => exact .fail rfl (herror e rfl) hp (.of_ne hop)
  | ok a => exact .step rfl (.keep hop hp hs) (.pure rfl hs (hgood a rfl))

end

/-! ## Code that computes an object

Code computes what an expression means if it does so on top of any stack, in front of any code and over any
dump. That is what makes pieces of code fit together: the code of a form is the code of its parts, one behind
the other, and so is the simulation.
-/

/-- A heap in which a chain can be used: every frame of the chain exists. -/
structure Fits (setting : Setting) (chain : Chain) (h : Heap) : Prop where
  sound : h.Sound setting.site
  base_le : setting.base ≤ h.size
  lt_size : ∀ f ∈ chain.frames, f < h.size

theorem Fits.mono {chain : Chain} {h h' : Heap} (hfit : Fits setting chain h)
    (hle : h.size ≤ h'.size) (hs : h'.Sound setting.site) : Fits setting chain h' :=
  ⟨hs, Nat.le_trans hfit.base_le hle, fun f hf => Nat.lt_of_lt_of_le (hfit.lt_size f hf) hle⟩

/-- Code simulates an evaluation in a chain: executed on any stack and in front of any code, it leaves
the object that the result is viewed as. -/
def Computes (setting : Setting) (fuel : Nat) (view : α → Object) (x : Evaluation α) (code : Code)
    (chain : Chain) : Prop :=
  ∀ (S : Stack) (C : Code) (D : List DumpEntry) (w : List FrameId) (h : Heap),
    Fits setting chain h →
    Simulates setting fuel x ⟨⟨S, chain.frames, code ++ C, D⟩, w⟩ h
      (fun a => ⟨⟨(view a).image :: S, chain.frames, C, D⟩, w⟩)
      (fun a h' => (view a).Sound setting.site h'.size)

namespace Computes
variable {fuel : Nat} {chain : Chain} {span : Span}

/-- A constant. -/
theorem constant {o : Object} {v : Value} (hv : o.image = v) (ho : ∀ n, o.Sound setting.site n) :
    Computes setting fuel id (pure o) (Code.constant span v) chain := by
  intro S C D w h hfit
  subst hv
  exact .step rfl (.keep (by decide) rfl hfit.sound) (.pure rfl hfit.sound (ho _))

/-- A variable, at the address that its name resolves to. -/
theorem load {name : String} {a : Address}
    (hres : Scope.resolveIn name chain.names = some a) (hlen : chain.names.length ≤ maxNesting)
    (hsite : setting.site span chain.names.length) :
    Computes setting fuel id (Evaluation.lookup chain name)
      [instr .ld span, .number (.ofIndex a.depth), .number (.ofIndex a.offset)] chain := by
  intro S C D w h hfit
  have hld := perform_ld h.image S chain.frames (.ofIndex a.depth) (.ofIndex a.offset) C D
  -- the names and the frames of a chain are as many, so the load stands in as deep a scope as it was read in
  have hsite' : setting.site span chain.frames.length := by
    rwa [Chain.length_frames, ← Chain.length_names]
  rcases load_image hres hlen h with ⟨o, hlookup, hload, f, hmem⟩ | ⟨e, hlookup, he, hload⟩
  · rw [hload] at hld
    exact .step (y := pure o) hlookup (.of_perform hld .keep hfit.sound (.of_site hsite'))
      (.pure rfl hfit.sound (hfit.sound f o hmem))
  · rw [hload] at hld
    exact .fail hlookup he hld (.of_site hsite')

/-- A primitive of one operand. -/
theorem unary {x : Evaluation Object} {code : Code} (op : UnaryOp)
    (hx : Computes setting fuel id x code chain) :
    Computes setting fuel id (x >>= fun o => Evaluation.lift (op.apply o))
      (code ++ [instr op.opcode span]) chain := by
  intro S C D w h hfit
  rw [List.append_assoc]
  refine (hx S _ D w h hfit).bind fun o h' hle hs ho => ?_
  exact .lift (by cases op <;> decide) (perform_unary _ _ _ _ _ op o) hs
    (fun _ => UnaryOp.apply_isOfData) (fun _ => UnaryOp.apply_sound ho)

/-- A primitive of two operands, of which the right one is evaluated first. -/
theorem binary {x y : Evaluation Object} {left right : Code} (op : BinaryOp)
    (hx : Computes setting fuel id x left chain) (hy : Computes setting fuel id y right chain) :
    Computes setting fuel id (y >>= fun b => x >>= fun a => Evaluation.lift (op.apply a b))
      (right ++ left ++ [instr op.opcode span]) chain := by
  intro S C D w h hfit
  rw [List.append_assoc, List.append_assoc]
  refine (hy S _ D w h hfit).bind fun b h₁ hle₁ hs₁ hb => ?_
  refine (hx _ _ D w h₁ (hfit.mono hle₁ hs₁)).bind fun a h₂ hle₂ hs₂ ha => ?_
  refine .lift ?_ (perform_binary _ _ _ _ _ op a b) hs₂ (fun _ => BinaryOp.apply_isOfData)
    (fun _ => BinaryOp.apply_sound ha (hb.mono hle₂))
  cases op with
  | operator o => cases o <;> decide
  | _ => decide

/-- A branch: the code of one of two expressions, in front of the way back. -/
theorem branch {x y z : Evaluation Object} {condition consequent alternative : Code}
    (hx : Computes setting fuel id x condition chain)
    (hy : Computes setting fuel id y consequent chain)
    (hz : Computes setting fuel id z alternative chain) :
    Computes setting fuel id (x >>= fun o => if o.isTruthy then y else z)
      (condition ++ [instr .sel span, Code.branch span consequent, Code.branch span alternative])
      chain := by
  intro S C D w h hfit
  rw [List.append_assoc]
  refine (hx S _ D w h hfit).bind fun o h' hle hs _ => ?_
  have hfit' := hfit.mono hle hs
  have hsel : perform .sel h'.image ⟨o.image :: S, chain.frames,
      [Code.branch span consequent, Code.branch span alternative] ++ C, D⟩ =
      .ok (⟨S, chain.frames,
        (if o.isTruthy then consequent else alternative) ++ [instr .join span], .join C :: D⟩,
        .keep) := by
    show Except.ok (_, _) = _
    rw [Object.isTruthy_image]
    cases o.isTruthy <;> rfl
  refine .step rfl (.keep (by decide) hsel hs) ?_
  -- both branches end in the same `JOIN`, which gives the code behind them back
  have hjoin : Computes setting fuel id (if o.isTruthy then y else z)
      (if o.isTruthy then consequent else alternative) chain := by
    cases o.isTruthy with
    | true => exact hy
    | false => exact hz
  exact (hjoin S [instr .join span] (.join C :: D) w h' hfit').then_step
    fun v h'' hs' => .keep (by decide) rfl hs'

/-- A function, with the frames that it was made in. -/
theorem function {parens : Parens} {params : List String} {body : List Expr} (hbody : body ≠ [])
    (hscoped : ScopedAll setting.site (params :: chain.names) body) :
    Computes setting fuel id (pure (.closure parens params body chain))
      [instr .ldf span, Code.function parens (codes body)] chain := by
  intro S C D w h hfit
  exact .step rfl (.keep (by decide) rfl hfit.sound)
    (.pure rfl hfit.sound ⟨hfit.lt_size, hbody, hscoped⟩)

/-- One expression after the other, for the value of the second. -/
theorem next {x y : Evaluation Object} {first second : Code}
    (hx : Computes setting fuel id x first chain) (hy : Computes setting fuel id y second chain) :
    Computes setting fuel id (x >>= fun _ => y) (first ++ instr .pop span :: second) chain := by
  intro S C D w h hfit
  rw [List.append_assoc]
  refine (hx S _ D w h hfit).bind fun o h' hle hs _ => ?_
  exact .step rfl (.keep (by decide) rfl hs) (hy S C D w h' (hfit.mono hle hs))

/-- The list without items. -/
theorem nil : Computes setting fuel Object.list (pure []) (Code.list span []) chain := by
  intro S C D w h hfit
  refine .step rfl (.keep (by decide) rfl hfit.sound) (.pure ?_ hfit.sound ?_)
  · rw [Object.image_list]
    rfl
  · exact sound_list_iff.mpr fun _ hm => nomatch hm

/-- A list with one more item in front, which is evaluated last. -/
theorem cons {xs : Evaluation (List Object)} {x : Evaluation Object} {codes : List Code} {code : Code}
    (hxs : Computes setting fuel Object.list xs (Code.list span codes) chain)
    (hx : Computes setting fuel id x code chain) :
    Computes setting fuel Object.list
      (xs >>= fun objects => x >>= fun o => Evaluation.lift (o.prepend objects))
      (Code.list span (code :: codes)) chain := by
  intro S C D w h hfit
  rw [Code.list_cons, List.append_assoc, List.append_assoc]
  refine (hxs S _ D w h hfit).bind fun objects h₁ hle₁ hs₁ hobjects => ?_
  refine (hx _ _ D w h₁ (hfit.mono hle₁ hs₁)).bind fun o h₂ hle₂ hs₂ ho => ?_
  have hcons := perform_cons S chain.frames C D h₂.image o (.list objects)
  refine .lift (by decide) (hcons.trans ?_) hs₂ (fun _ => Object.prepend_isOfData) fun os hos => ?_
  · show (o.prepend objects >>= _) = _
    cases o.prepend objects <;> rfl
  · exact sound_list_iff.mpr (Object.prepend_sound ho (sound_list_iff.mp (hobjects.mono hle₂)) hos)

/-- A list is an object. -/
theorem toList {xs : Evaluation (List Object)} {code : Code}
    (hxs : Computes setting fuel Object.list xs code chain) :
    Computes setting fuel id (xs >>= fun objects => pure (.list objects)) code chain := by
  intro S C D w h hfit
  exact (hxs S C D w h hfit).bind fun objects h' _ hs hobjects => .pure rfl hs hobjects

end Computes

/-! ## Calls

A call leaves the piece of code that it stands in, and comes back behind it. Its body is the code of another
expression, so that this is where the induction on the fuel comes in (`applies_applyWith`).
-/

/-- A way to apply functions is that of the machine: `AP` calls the code of a body. -/
def Applies (setting : Setting) (fuel : Nat) (apply : Application) : Prop :=
  ∀ (parens : Parens) (params : List String) (body : List Expr) (chain : Chain) (args : List Object)
    (span : Span) (S : Stack) (env : Environment) (C : Code) (D : List DumpEntry) (w : List FrameId)
    (h : Heap), Fits setting chain h → body ≠ [] →
    ScopedAll setting.site (params :: chain.names) body →
    (∀ o ∈ args, o.Sound setting.site h.size) →
    Simulates setting fuel (apply params body chain args)
      ⟨⟨.closure (Code.body parens body) chain.frames :: Object.image (.list args) :: S, env,
        instr .ap span :: C, D⟩, w⟩ h
      (fun o => ⟨⟨o.image :: S, env, C, D⟩, w⟩) (fun o h' => o.Sound setting.site h'.size)

section
variable {fuel : Nat} {chain : Chain} {span : Span} {parens : Parens} {names : List String}

/-- A chain with a new frame in front can be used once the frame is made. -/
theorem Fits.push {h : Heap} (hfit : Fits setting chain h) {objects : List Object}
    (ho : ∀ o ∈ objects, o.Sound setting.site h.size) :
    Fits setting (⟨names, h.size⟩ :: chain) (h.alloc objects) := by
  refine ⟨hfit.sound.alloc ho, ?_, ?_⟩
  · rw [Heap.size_alloc]
    exact Nat.le_succ_of_le hfit.base_le
  · rw [Heap.size_alloc, Chain.frames_cons]
    exact List.forall_mem_cons.mpr
      ⟨Nat.lt_succ_self _, fun f hf => Nat.lt_succ_of_lt (hfit.lt_size f hf)⟩

/-- `AP` starts the code of a closure in a new frame with the arguments. -/
theorem Step.call (chain : Chain) {code : Code} {S : Stack} {env : Environment} {C : Code} {D : List DumpEntry}
    {w : List FrameId} {h : Heap} {args : List Object} (hs : h.Sound setting.site)
    (ho : ∀ o ∈ args, o.Sound setting.site h.size) :
    Step setting
      ⟨⟨.closure code chain.frames :: Object.image (.list args) :: S, env, instr .ap span :: C, D⟩, w⟩ h
      ⟨⟨[], h.size :: chain.frames, code, .call S env C :: D⟩, w⟩ (h.alloc args) := by
  refine .of_perform ?_ (.call args) (hs.alloc ho) (.of_ne (by decide))
  rw [Object.image_list]
  show Except.ok (Registers.enter _ _ _ _ (h.image.size :: _), _) = _
  rw [Heap.size_image]
  rfl

/-- The code of a body leaves its value to the caller that was saved. -/
theorem Computes.returns {x : Evaluation Object} {body : List Expr}
    (hx : Computes setting fuel id x (Code.sequence parens.opening (codes body)) chain)
    (S : Stack) (env : Environment) (C : Code) (D : List DumpEntry) (w : List FrameId) {h : Heap}
    (hfit : Fits setting chain h) :
    Simulates setting fuel x
      ⟨⟨[], chain.frames, Code.body parens body, .call S env C :: D⟩, w⟩ h
      (fun o => ⟨⟨o.image :: S, env, C, D⟩, w⟩) (fun o h' => o.Sound setting.site h'.size) :=
  (hx [] [instr .rtn parens.span] (.call S env C :: D) w h hfit).then_step
    fun _ _ hs => .keep (by decide) rfl hs

/-- `let`: the initialisers as a list, and a call of the body in the frame they make. -/
theorem Computes.letIn {xs : Evaluation (List Object)} {y : FrameId → Evaluation Object}
    {inits : List Code} {body : List Expr}
    (hxs : Computes setting fuel Object.list xs (Code.list span inits) chain)
    (hy : ∀ f, Computes setting fuel id (y f) (Code.sequence parens.opening (codes body))
      (⟨names, f⟩ :: chain)) :
    Computes setting fuel id (xs >>= fun objects => Evaluation.alloc objects >>= y)
      (Code.list span inits ++ [instr .ldf span, Code.function parens (codes body), instr .ap span])
      chain := by
  intro S C D w h hfit
  rw [List.append_assoc]
  refine (hxs S _ D w h hfit).bind fun objects h₁ hle hs hobjects => ?_
  have hfit₁ := hfit.mono hle hs
  have ho := sound_list_iff.mp hobjects
  refine .step rfl (.keep (by decide) rfl hs) ?_
  exact .step (y := y h₁.size) rfl (.call chain hs ho)
    ((hy h₁.size).returns S chain.frames C D w (hfit₁.push ho))

/-- `letrec`: an empty frame, the initialisers as a list, and a body that starts when `RAP` has put them
into the frame. -/
theorem Computes.letrec {xs : FrameId → Evaluation (List Object)} {y : FrameId → Evaluation Object}
    {inits : List Code} {body : List Expr}
    (hxs : ∀ f, Computes setting fuel Object.list (xs f) (Code.list span inits) (⟨names, f⟩ :: chain))
    (hy : ∀ f, Computes setting fuel id (y f) (Code.sequence parens.opening (codes body))
      (⟨names, f⟩ :: chain)) :
    Computes setting fuel id (Evaluation.alloc [] >>= fun f => xs f >>= fun objects =>
        Evaluation.fill f objects >>= fun _ => y f)
      (instr .dum span :: Code.list span inits ++
        [instr .ldf span, Code.function parens (codes body), instr .rap span]) chain := by
  intro S C D w h hfit
  have hnone : ∀ o ∈ ([] : List Object), o.Sound setting.site h.size := fun _ hm => nomatch hm
  -- the frame of the names is made first and without contents, so that the initialisers can close over it
  have hdum : Step setting
      ⟨⟨S, chain.frames, instr .dum span :: (Code.list span inits ++
        ([instr .ldf span, Code.function parens (codes body), instr .rap span] ++ C)), D⟩, w⟩ h
      ⟨⟨S, h.size :: chain.frames, Code.list span inits ++
        ([instr .ldf span, Code.function parens (codes body), instr .rap span] ++ C), D⟩,
        h.size :: w⟩ (h.alloc []) := by
    refine .of_perform ?_ .reserve (hfit.sound.alloc hnone) (.of_ne (by decide))
    show Except.ok (_, _) = _
    rw [Heap.size_image]
  rw [List.cons_append, List.cons_append, List.append_assoc]
  refine .step (y := xs h.size >>= fun objects => Evaluation.fill h.size objects >>= fun _ => y h.size)
    rfl hdum ?_
  have hinner : Fits setting (⟨names, h.size⟩ :: chain) (h.alloc []) := hfit.push hnone
  refine (hxs h.size S _ D (h.size :: w) (h.alloc []) hinner).bind
    fun objects h₁ hle hs hobjects => ?_
  have ho := sound_list_iff.mp hobjects
  refine .step rfl (.keep (by decide) rfl hs) ?_
  -- the frame is filled, and the caller is saved without it: it is gone when the body returns
  have hrap : Step setting
      ⟨⟨.closure (Code.body parens body) (h.size :: chain.frames) :: Object.image (.list objects) :: S,
        h.size :: chain.frames, instr .rap span :: C, D⟩, h.size :: w⟩ h₁
      ⟨⟨[], h.size :: chain.frames, Code.body parens body, .call S chain.frames C :: D⟩, w⟩
      (h₁.fill h.size objects) := by
    refine .of_perform ?_ (.fill objects hfit.base_le) (hs.fill _ ho) (.of_ne (by decide))
    rw [Object.image_list]
    rfl
  refine .step (y := y h.size) rfl hrap ((hy h.size).returns S chain.frames C D w ?_)
  have hsize := Heap.size_fill h₁ h.size objects
  exact hinner.mono (hsize ▸ hle) (hs.fill _ ho)

/-- A call: the arguments as a list, then the function, and then `AP`. -/
theorem Computes.call {apply : Application} {xs : Evaluation (List Object)} {x : Evaluation Object}
    {args : List Code} {function : Code} (happly : Applies setting fuel apply)
    (hxs : Computes setting fuel Object.list xs (Code.list span args) chain)
    (hx : Computes setting fuel id x function chain) :
    Computes setting fuel id (xs >>= fun objects => x >>= fun o => o.call apply objects)
      (Code.list span args ++ function ++ [instr .ap span]) chain := by
  intro S C D w h hfit
  rw [List.append_assoc, List.append_assoc]
  refine (hxs S _ D w h hfit).bind fun objects h₁ hle₁ hs₁ hobjects => ?_
  refine (hx _ _ D w h₁ (hfit.mono hle₁ hs₁)).bind fun o h₂ hle₂ hs₂ ho => ?_
  -- only a closure can be called, and the machine complains about the rest with the kind of the value
  have hargs := sound_list_iff.mp (hobjects.mono hle₂)
  cases o with
  | closure parens params body captured =>
    obtain ⟨hframes, hbody, hscoped⟩ := ho
    have hbase := Nat.le_trans hfit.base_le (Nat.le_trans hle₁ hle₂)
    exact happly parens params body captured objects span S chain.frames C D w h₂
      ⟨hs₂, hbase, hframes⟩ hbody hscoped hargs
  | list items =>
    refine .fail rfl rfl ?_ (.of_ne (by decide))
    rw [← Object.kind_image]
    rfl
  | _ => exact .fail rfl rfl rfl (.of_ne (by decide))

end

/-! ## Expressions -/

section
variable {fuel : Nat} {apply : Application}

mutual
/-- **The code of an expression computes what the expression means.** -/
theorem computes_expr (happly : Applies setting fuel apply) (chain : Chain) :
    ∀ e : Expr, e.Scoped setting.site chain.names →
    Computes setting fuel id (e.eval apply chain) e.code chain
  | .literal _ l, _ => by
    rw [Expr.eval, Expr.code]
    exact .constant (Object.image_ofLiteral l) fun n => .ofLiteral n l
  | .null span, _ => by
    rw [Expr.eval, Expr.code]
    intro S C D w h hfit
    exact .step rfl (.keep (by decide) rfl hfit.sound) (.pure rfl hfit.sound trivial)
  | .var _ _ _, ⟨hres, hlen, hsite⟩ => by
    rw [Expr.eval, Expr.code]
    exact .load hres hlen hsite
  | .quote _ d, _ | .quoteForm _ d, _ => by
    rw [Expr.eval, Expr.code]
    exact .constant (Object.image_ofDatum d) fun n => .ofDatum n d
  | .quasi span t, h => by
    rw [Expr.eval, Expr.code]
    exact computes_template happly chain span t h
  | .unary _ op e, h => by
    rw [Expr.eval, Expr.code]
    exact (computes_expr happly chain e h).unary op
  | .binary _ op l r, ⟨hl, hr⟩ => by
    rw [Expr.eval, Expr.code]
    exact (computes_expr happly chain l hl).binary op (computes_expr happly chain r hr)
  | .ifElse _ c t e, ⟨hc, ht, he⟩ => by
    rw [Expr.eval, Expr.code]
    exact (computes_expr happly chain c hc).branch (computes_expr happly chain t ht) (computes_expr happly chain e he)
  | .lambda _ _ _, ⟨hbody, h⟩ => by
    rw [Expr.eval, Expr.code]
    exact .function hbody h
  | .letIn parens bindings body, ⟨hinits, hbody, h⟩ => by
    rw [Expr.eval, Expr.code]
    exact (computes_inits happly chain parens.span bindings hinits).letIn fun f =>
      computes_sequence happly (⟨bindings.map Prod.fst, f⟩ :: chain) parens.opening body hbody h
  | .letrec parens bindings body, ⟨hinits, hbody, h⟩ => by
    rw [Expr.eval, Expr.code]
    exact .letrec
      (fun f => computes_inits happly (⟨bindings.map Prod.fst, f⟩ :: chain) parens.span bindings hinits)
      fun f => computes_sequence happly (⟨bindings.map Prod.fst, f⟩ :: chain) parens.opening body hbody h
  | .sequence parens forms, ⟨hforms, h⟩ => by
    rw [Expr.eval, Expr.code]
    exact computes_sequence happly chain parens.span forms hforms h
  | .app parens f args, ⟨hf, hargs⟩ => by
    rw [Expr.eval, Expr.code]
    exact .call happly (computes_args happly chain parens.span args hargs) (computes_expr happly chain f hf)
-- items are evaluated from the last to the first, and the code of a list has them in this order
theorem computes_args (happly : Applies setting fuel apply) (chain : Chain) (span : Span) :
    ∀ es : List Expr, ScopedAll setting.site chain.names es →
    Computes setting fuel Object.list (evalArgs apply chain es) (Code.list span (codes es)) chain
  | [], _ => by
    rw [evalArgs, codes]
    exact .nil
  | e :: es, ⟨h, hs⟩ => by
    rw [evalArgs, codes]
    exact (computes_args happly chain span es hs).cons (computes_expr happly chain e h)
theorem computes_inits (happly : Applies setting fuel apply) (chain : Chain) (span : Span) :
    ∀ bindings : List (String × Expr), ScopedInits setting.site chain.names bindings →
    Computes setting fuel Object.list (evalInits apply chain bindings)
      (Code.list span (initCodes bindings)) chain
  | [], _ => by
    rw [evalInits, initCodes]
    exact .nil
  | (_, e) :: rest, ⟨h, hs⟩ => by
    rw [evalInits, initCodes]
    exact (computes_inits happly chain span rest hs).cons (computes_expr happly chain e h)
theorem computes_sequence (happly : Applies setting fuel apply) (chain : Chain) (span : Span) :
    ∀ es : List Expr, es ≠ [] → ScopedAll setting.site chain.names es →
    Computes setting fuel id (evalSequence apply chain es) (Code.sequence span (codes es)) chain
  | [], hne, _ => absurd rfl hne
  | [e], _, ⟨h, _⟩ => by
    rw [evalSequence, codes, codes, Code.sequence]
    exact computes_expr happly chain e h
  | e :: next :: rest, _, ⟨h, hs⟩ => by
    rw [evalSequence, codes, codes, Code.sequence, ← codes]
    · exact (computes_expr happly chain e h).next
        (computes_sequence happly chain span (next :: rest) (List.cons_ne_nil _ _) hs)
    · exact fun hnil => nomatch hnil
    · exact fun hnil => nomatch hnil
theorem computes_template (happly : Applies setting fuel apply) (chain : Chain) (span : Span) :
    ∀ t : Template, t.Scoped setting.site chain.names →
    Computes setting fuel id (t.eval apply chain) (t.code span) chain
  | .hole e, h => by
    rw [Template.eval, Template.code]
    exact computes_expr happly chain e h
  | .datum d, _ => by
    rw [Template.eval, Template.code]
    exact .constant (Object.image_ofDatum d) fun n => .ofDatum n d
  | .list parens items, h => by
    rw [Template.eval, Template.code, Template.values?_eq]
    -- without a hole the template is a constant, and the code is that of its value
    cases Template.data? items with
    | some ds =>
      refine .constant ?_ fun n => .ofDatum n (.list ds)
      rw [Object.image_list, Object.image_ofData]
    | none => exact (computes_templates happly chain parens.span items h).toList
theorem computes_templates (happly : Applies setting fuel apply) (chain : Chain) (span : Span) :
    ∀ ts : List Template, ScopedTemplates setting.site chain.names ts →
    Computes setting fuel Object.list (evalTemplates apply chain ts)
      (Code.list span (templateCodes span ts)) chain
  | [], _ => by
    rw [evalTemplates, templateCodes]
    exact .nil
  | t :: ts, ⟨h, hs⟩ => by
    rw [evalTemplates, templateCodes]
    exact (computes_templates happly chain span ts hs).cons (computes_template happly chain span t h)
end

end

/-- **Calls with fuel are those of the machine.** Each call takes a step of the machine before it
evaluates the body, so that fuel is spent no faster than steps are made. -/
theorem applies_applyWith (fuel : Nat) : Applies setting fuel (applyWith fuel) := by
  induction fuel with
  | zero =>
    -- no fuel is left, and no step has to be shown
    intro parens params body chain args span S env C D w h hfit hbody hscoped hargs
    exact ⟨0, _, h, Nat.le_refl _, .refl _ _⟩
  | succ fuel ih =>
    intro parens params body chain args span S env C D w h hfit hbody hscoped hargs
    have hseq := computes_sequence ih (⟨params, h.size⟩ :: chain) parens.opening body hbody hscoped
    exact .of_step (y := evalSequence (applyWith fuel) (⟨params, h.size⟩ :: chain) body) rfl
      (.call chain hfit.sound hargs) (hseq.returns S env C D w (hfit.push hargs))

end

end LispMachine
