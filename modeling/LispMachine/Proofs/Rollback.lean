import LispMachine.Proofs.History

/-!
# Failed programs leave nothing behind

A program that fails in a session, when it is read or at any point of its run, leaves the session as it
was: the names, the global frame, and every frame that can be reached from the global frame through
the closures that stand in frames.

Cutting back the global frame is enough for that. Of the frames that are older than a run, `DEFUN`
adds to the global one, and no instruction touches another: the frame that `RAP` fills was made in the
same run (`Change.contents_old`). And everything that can be reached is older than the run
(`Represents.lt_of_reaches`).
-/

namespace LispMachine

namespace Value

mutual
/-- The frames that the closures in a value have captured. -/
def frames : Value → List FrameId
  | .list items => framesOfAll items
  | .closure _ env => env
  | _ => []
/-- The frames that the closures in values have captured. -/
def framesOfAll : List Value → List FrameId
  | [] => []
  | v :: vs => v.frames ++ framesOfAll vs
end

end Value

/-- The frames that can be reached from a frame, through the closures that stand in frames. -/
inductive Store.Reaches (store : Store) (root : FrameId) : FrameId → Prop
  | root : Reaches store root root
  | through {f g : FrameId} {v : Value} (hf : Reaches store root f) (hv : v ∈ store.contents f)
      (hg : g ∈ v.frames) : Reaches store root g

/-- Where the contents of all reachable frames are the same, the same frames are reachable. -/
theorem Store.reaches_congr {store store' : Store} {root : FrameId}
    (heq : ∀ f, store.Reaches root f → store'.contents f = store.contents f) {f : FrameId} :
    store'.Reaches root f ↔ store.Reaches root f := by
  constructor
  · intro hf
    induction hf with
    | root => exact .root
    | through _ hv hg ih =>
      rw [heq _ ih] at hv
      exact .through ih hv hg
  · intro hf
    induction hf with
    | root => exact .root
    | through hf hv hg ih =>
      rw [← heq _ hf] at hv
      exact .through ih hv hg

mutual
/-- A sound object captures only frames that exist. -/
theorem Object.Sound.lt_of_mem_frames {site : Site} {bound : Nat} :
    ∀ {o : Object}, o.Sound site bound → ∀ f ∈ o.image.frames, f < bound
  | .number _, _, _, hf | .string _, _, _, hf | .symbol _, _, _, hf => nomatch hf
  | .list items, hs, f, hf => Object.Sound.lt_of_mem_framesOfAll items hs f hf
  | .closure _ _ _ _, hs, f, hf => hs.1 f hf
theorem Object.Sound.lt_of_mem_framesOfAll {site : Site} {bound : Nat} :
    ∀ os : List Object, SoundAll site bound os →
      ∀ f ∈ Value.framesOfAll (Object.images os), f < bound
  | [], _, _, hf => nomatch hf
  | o :: os, hs, f, hf => by
    rcases List.mem_append.mp hf with hf | hf
    · exact hs.1.lt_of_mem_frames f hf
    · exact Object.Sound.lt_of_mem_framesOfAll os hs.2 f hf
end

/-- What can be reached from the global frame is one of the frames of the heap. -/
theorem Represents.lt_of_reaches {site : Site} {h : Heap} {s : Session} (hh : Represents site h s)
    {f : FrameId} (hf : s.store.Reaches s.globalFrame f) : f < h.size := by
  induction hf with
  | root => exact hh.global_lt
  | through _ hv hg _ =>
    rw [← hh.image, Heap.contents_image] at hv
    obtain ⟨o, ho, rfl⟩ := List.mem_map.mp hv
    exact (hh.sound _ o ho).lt_of_mem_frames _ hg

/-- **A failed evaluation is undone.** Whatever the limit on steps and wherever it fails, the names, the
environment, the global values and all frames that can be reached from them are what they were. -/
theorem failed_eval_is_undone (s : Session) (hs : s.Reachable) (source : String) (e : Error)
    (hfail : (s.eval source).1 = .error e) :
    (s.eval source).2.globals = s.globals ∧ (s.eval source).2.env = s.env ∧
      (s.eval source).2.values = s.values ∧
      ∀ f, ((s.eval source).2.store.Reaches s.globalFrame f ↔ s.store.Reaches s.globalFrame f) ∧
        (s.store.Reaches s.globalFrame f →
          (s.eval source).2.store.contents f = s.store.contents f) := by
  rw [Session.eval_eq] at hfail ⊢
  cases hp : s.program source with
  | error fault => exact ⟨rfl, rfl, rfl, fun f => ⟨Iff.rfl, fun _ => rfl⟩⟩
  | ok p =>
    simp only [hp] at hfail ⊢
    obtain ⟨h, hh⟩ := hs.kept.heap
    cases hexecute : s.execute p with
    | mk result s' =>
      rw [hexecute] at hfail
      cases hfail
      obtain ⟨hglobals, hglobal, h', hh', -, hkeep⟩ :=
        hh.execute_error (Session.scoped_of_program hp) hexecute
      have henv : s'.env = s.env := by rw [Session.env, Session.env, hglobal]
      -- a frame that can be reached is older than the run, and those are as they were
      have hcontents : ∀ f, s.store.Reaches s.globalFrame f →
          s'.store.contents f = s.store.contents f := by
        intro f hf
        rw [← hh'.image, ← hh.image, Heap.contents_image, Heap.contents_image,
          hkeep f (hh.lt_of_reaches hf)]
      exact ⟨hglobals, henv, hh.values_of_contents hh' hglobal hkeep, fun f =>
        ⟨Store.reaches_congr hcontents, hcontents f⟩⟩

/-- A program that defines a name, calls a closure of the session, and then fails. -/
theorem failed_definition_is_undone :
    ∃ (s : Session) (e : Error),
      s = Session.after {} [.eval "(define f (let ((k 2)) (lambda (n) (* k n))))"] ∧
      (s.eval "(define y (f 3)) (define f 0) (car y)").1 = .error e ∧
      (s.eval "(define y (f 3)) (define f 0) (car y)").2.values = s.values := by
  let s := Session.after {} [.eval "(define f (let ((k 2)) (lambda (n) (* k n))))"]
  let source := "(define y (f 3)) (define f 0) (car y)"
  have hok : (s.eval source).1.isOk = false := by decide +kernel
  cases hfail : (s.eval source).1 with
  | ok r =>
    rw [hfail] at hok
    cases hok
  | error e => exact ⟨s, e, rfl, hfail, (failed_eval_is_undone s ⟨_, _, rfl⟩ source e hfail).2.2.1⟩

end LispMachine
