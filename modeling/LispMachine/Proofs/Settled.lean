import LispMachine.Proofs.History
import LispMachine.Proofs.Parallel

/-!
# What a session refers to

The store of a session also has the frames of programs that failed, and of machines that ran over a
copy of the global frame. Functions in these frames may look for names in the global frame that the
session does not have, and nothing can be said about them. The frames that the session refers to are
settled (`Session.Settled`): functions in them refer to such frames only, and look at no more of the
global frame than there are global names.

Whatever is asked of a session, the frames that it refers to stay settled (`Session.Reachable.settled`).
A program that fails, or that runs over a copy, leaves them as they were. A program that runs to its end
adds its own frames, and these are settled because the program goes together with itself.

A store may have more than the session's: other frames, values that were added to the global frame, and
copies of it. It is alike to the session's store (`Session.Settled.twin_storesAlike`), as functions of
the session see nothing of what was added.
-/

namespace LispMachine

namespace Session

/-- The frames that functions of a session may refer to, each with itself: one of the given frames, and
the global frame for links with no more names than there are. -/
def within (s : Session) (live : FrameId → Prop) : Meeting := fun k f₁ f₂ =>
  f₁ = f₂ ∧ live f₁ ∧ (f₁ = s.globalFrame → k ≤ s.globals.length)

/-- Some frames of a session, with the global frame among them, hold functions that refer to these frames
only. -/
structure Settled (s : Session) (live : FrameId → Prop) : Prop where
  global : live s.globalFrame
  lt_size : ∀ f, live f → f < s.store.size
  alike : ∀ f, live f → Frame.Alike (s.within live) (s.store.contents f) (s.store.contents f)

end Session

open Session (Settled)

section
variable {s s' : Session} {live : FrameId → Prop}

theorem settled_fresh (d : Dialect) : Settled { dialect := d } (· = 0) := by
  refine ⟨rfl, ?_, ?_⟩
  · rintro f rfl
    exact Nat.zero_lt_one
  · rintro f rfl
    exact .of_objects .nil

/-- Frames that are as they were stay settled. -/
theorem Session.Settled.of_contents (hs : Settled s live) (hglobals : s'.globals = s.globals)
    (hglobal : s'.globalFrame = s.globalFrame) (hsize : s.store.size ≤ s'.store.size)
    (hcontents : ∀ f, f < s.store.size → s'.store.contents f = s.store.contents f) :
    Settled s' live := by
  have hwithin : s'.within live = s.within live := by
    unfold Session.within
    rw [hglobals, hglobal]
  refine ⟨?_, ?_, ?_⟩
  · rw [hglobal]
    exact hs.global
  · intro f hf
    exact Nat.lt_of_lt_of_le (hs.lt_size f hf) hsize
  · intro f hf
    rw [hwithin, hcontents f (hs.lt_size f hf)]
    exact hs.alike f hf

/-- A program goes together with itself over the frames that a session refers to, with the names that it
defines. -/
def Session.Settled.pairing (hs : Settled s live) (p : Program) : Pairing where
  whole k f₁ f₂ :=
    f₁ = f₂ ∧ live f₁ ∧ (f₁ = s.globalFrame → k ≤ s.globals.length + p.definedNames.length)
  part _ _ _ := False
  base₁ := s.store.size
  base₂ := s.store.size
  whole_lt := by
    rintro k f₁ f₂ ⟨rfl, hf, -⟩
    exact ⟨hs.lt_size f₁ hf, hs.lt_size f₁ hf⟩
  part_lt := False.elim

theorem Session.Settled.storesAlike (hs : Settled s live) (p : Program) :
    StoresAlike (hs.pairing p) 0 s.store s.store := by
  refine ⟨rfl, rfl, ?_, False.elim⟩
  rintro k f₁ f₂ (⟨rfl, hf, -⟩ | ⟨i, hi, -⟩)
  · refine (hs.alike f₁ hf).mono ?_
    rintro k' f f' ⟨rfl, hf', hk⟩
    exact .inl (.inl ⟨rfl, hf', fun hg => Nat.le_trans (hk hg) (Nat.le_add_right _ _)⟩)
  · cases hi

/-- A program that runs to its end leaves the frames of the session settled, together with its own. -/
theorem Session.Settled.execute_ok (hs : Settled s live) {p : Program}
    (hscoped : p.Scoped .anywhere s.globals) {r : Option Value} (hexecute : s.execute p = (.ok r, s')) :
    ∃ live', Settled s' live' := by
  have hmeets : ∀ k, k ≤ s.globals.length + p.definedNames.length →
      (hs.pairing p).meets 0 k s.globalFrame s.globalFrame := by
    intro k hk
    exact .inl (.inl ⟨rfl, hs.global, fun _ => hk⟩)
  have hlt : s.globalFrame < s.store.size := hs.lt_size _ hs.global
  have hdefines : (hs.pairing p).Defines s.globalFrame s.globalFrame := by
    refine ⟨hlt, hlt, ?_⟩
    rintro k f₁ f₂ ⟨rfl, -⟩
    exact Iff.rfl
  have hend := Program.endTogether hscoped hmeets (fun _ => hdefines) (hs.storesAlike p) s.stepLimit
  unfold Session.execute Session.env at hexecute
  cases hrun : (Machine.start p.code [s.globalFrame] s.store).runWithLimit s.stepLimit with
  | mk result m =>
    rw [hrun] at hexecute hend
    cases result with
    | error e => cases hexecute
    | ok r' =>
      cases hexecute
      obtain ⟨t₁, t₂, hfinished, ht₁, ht₂⟩ := hend.post
      obtain ⟨n, hstores⟩ := hfinished.storesAlike
      rw [← ht₁, ← ht₂] at hstores
      have hsize : m.store.size = s.store.size + n := hstores.size₁
      -- the program's own frames are those that the run has added to the store
      refine ⟨fun f => live f ∨ s.store.size ≤ f ∧ f < m.store.size, .inl hs.global, ?_, ?_⟩
      · rintro f (hf | ⟨-, hf⟩)
        · exact Nat.lt_of_lt_of_le (hs.lt_size f hf) (hsize ▸ Nat.le_add_right _ _)
        · exact hf
      · intro f hf
        have hsame : (hs.pairing p).same n 0 f f := by
          rcases hf with hf | ⟨hle, hlt⟩
          · exact .inl ⟨rfl, hf, fun _ => Nat.zero_le _⟩
          · obtain ⟨i, rfl⟩ := Nat.exists_eq_add_of_le hle
            rw [hsize] at hlt
            exact .inr ⟨i, Nat.lt_of_add_lt_add_left hlt, rfl, rfl⟩
        refine (hstores.same hsame).mono ?_
        rintro k f₁ f₂ ((⟨rfl, hf₁, hk⟩ | ⟨i, hi, rfl, rfl⟩) | hfalse)
        -- an old frame: what it refers to may look at the new names as well, as they are there now
        · refine ⟨rfl, .inl hf₁, fun hg => ?_⟩
          rw [List.length_append]
          exact hk hg
        · refine ⟨rfl, .inr ⟨Nat.le_add_right _ _, ?_⟩, fun hg => ?_⟩
          · rw [hsize]
            exact Nat.add_lt_add_left hi _
          · have hlt' : s.store.size + i < s.store.size := hg ▸ hlt
            omega
        · exact hfalse.elim

/-- Old frames that are as they were in the heap are so in the store. -/
theorem Represents.settled {h h' : Heap} (hh : Represents .anywhere h s) (hh' : Represents .anywhere h' s')
    (hs : Settled s live) (hglobals : s'.globals = s.globals) (hglobal : s'.globalFrame = s.globalFrame)
    (hsize : h.size ≤ h'.size) (hkeep : ∀ f, f < h.size → h'.contents f = h.contents f) :
    Settled s' live := by
  refine hs.of_contents hglobals hglobal ?_ ?_
  · rw [← hh.image, ← hh'.image, Heap.size_image, Heap.size_image]
    exact hsize
  · intro f hf
    rw [← hh.image, Heap.size_image] at hf
    rw [← hh.image, ← hh'.image, Heap.contents_image, Heap.contents_image, hkeep f hf]

/-- What every request keeps: a heap whose image is the store, and frames that are settled. -/
structure Steady (s : Session) : Prop where
  kept : Kept .anywhere s
  settled : ∃ live, Settled s live

theorem steady_fresh (d : Dialect) : Steady { dialect := d } :=
  ⟨kept_fresh .anywhere d, _, settled_fresh d⟩

/-- Every request leaves a session settled. -/
theorem Steady.answer (hs : Steady s) (r : Request) : Steady (s.answer r) := by
  obtain ⟨hkept, live, hlive⟩ := hs
  obtain ⟨h, hh⟩ := hkept.heap
  have hkept' := hkept.answerBy (fun _ _ hscoped => hscoped : Admits id .anywhere) r
  rw [Session.answer_eq_answerBy]
  refine ⟨hkept', ?_⟩
  cases r with
  | limit steps => exact ⟨live, hlive.global, hlive.lt_size, hlive.alike⟩
  | eval source =>
    rw [Session.answerBy]
    cases hp : s.program source with
    | error fault => exact ⟨live, hlive⟩
    | ok p =>
      have hscoped := Session.scoped_of_program hp
      cases hexecute : s.execute p with
      | mk result s' =>
        have hanswer : (s.execute (id p)).2 = s' := congrArg Prod.snd hexecute
        simp only [hanswer]
        cases result with
        | ok r => exact hlive.execute_ok hscoped hexecute
        | error e =>
          obtain ⟨hglobals, hglobal, h', hh', hsize, hkeep⟩ := hh.execute_error hscoped hexecute
          exact ⟨live, hh.settled hh' hlive hglobals hglobal hsize hkeep⟩
  | machine source steps =>
    rw [Session.answerBy]
    cases hp : s.program source with
    | error fault => exact ⟨live, hlive⟩
    | ok p =>
      obtain ⟨h', hh', hsize, hkeep⟩ := hh.run_load (Session.scoped_of_program hp) steps
      exact ⟨live, hh.settled hh' hlive rfl rfl hsize hkeep⟩

/-- **A session with a history refers to frames that are settled.** -/
theorem Session.Reachable.settled (hs : s.Reachable) : ∃ live, Settled s live := by
  have hsteady : Steady s := hs.of_answer steady_fresh fun _ r h => h.answer r
  exact hsteady.settled

end

/-! ## Stores that have more -/

/-- A store that has what an older one had: one frame may have grown, and the others are as they were. -/
structure Store.Extends (g : FrameId) (store store' : Store) : Prop where
  size_le : store.size ≤ store'.size
  frames : ∀ f, f < store.size → f ≠ g → store'.contents f = store.contents f
  grown : store.contents g <+: store'.contents g

namespace Store.Extends
variable {g : FrameId} {store store' store'' : Store}

theorem refl (g : FrameId) (store : Store) : store.Extends g store :=
  ⟨Nat.le_refl _, fun _ _ _ => rfl, List.prefix_rfl⟩

theorem trans (h : store.Extends g store') (h' : store'.Extends g store'') : store.Extends g store'' := by
  refine ⟨Nat.le_trans h.size_le h'.size_le, ?_, h.grown.trans h'.grown⟩
  intro f hf hne
  rw [h'.frames f (Nat.lt_of_lt_of_le hf h.size_le) hne, h.frames f hf hne]

theorem alloc (hg : g < store.size) (values : Frame) : store.Extends g (store.alloc values) := by
  have hold : ∀ f, f < store.size → (store.alloc values).contents f = store.contents f := by
    intro f hf
    rw [Store.contents_alloc, if_neg (Nat.ne_of_lt hf)]
  refine ⟨?_, fun f hf _ => hold f hf, ?_⟩
  · rw [Store.size_alloc]
    exact Nat.le_succ _
  · exact (hold g hg).symm ▸ List.prefix_rfl

end Store.Extends

namespace Session.Settled
variable {s : Session} {live copy : FrameId → Prop} {store : Store}

/-- Which frames of a session belong to which frames of a store that extends the session's. The global
frame has itself as a partner, as far as there are names, and its copies in the other store as a
whole. -/
def twin (hs : Settled s live) (hext : s.store.Extends s.globalFrame store)
    (hcopy : ∀ f, copy f → f < store.size ∧ store.contents f = s.values) : Pairing where
  whole _ f₁ f₂ := (f₁ = f₂ ∧ live f₁ ∧ f₁ ≠ s.globalFrame) ∨ (f₁ = s.globalFrame ∧ copy f₂)
  part k f₁ f₂ := f₁ = s.globalFrame ∧ f₂ = s.globalFrame ∧ k ≤ s.globals.length
  base₁ := s.store.size
  base₂ := store.size
  whole_lt := by
    rintro k f₁ f₂ (⟨rfl, hf, -⟩ | ⟨rfl, hf⟩)
    · exact ⟨hs.lt_size f₁ hf, Nat.lt_of_lt_of_le (hs.lt_size f₁ hf) hext.size_le⟩
    · exact ⟨hs.lt_size _ hs.global, (hcopy f₂ hf).1⟩
  part_lt := by
    rintro k f₁ f₂ ⟨rfl, rfl, -⟩
    exact ⟨hs.lt_size _ hs.global, Nat.lt_of_lt_of_le (hs.lt_size _ hs.global) hext.size_le⟩

/-- The frames that functions of the session refer to have themselves as partners. -/
theorem twin_of_within (hs : Settled s live) (hext : s.store.Extends s.globalFrame store)
    (hcopy : ∀ f, copy f → f < store.size ∧ store.contents f = s.values) {k f₁ f₂ : Nat}
    (h : s.within live k f₁ f₂) : (hs.twin hext hcopy).meets 0 k f₁ f₂ := by
  obtain ⟨rfl, hf, hk⟩ := h
  by_cases hglobal : f₁ = s.globalFrame
  · exact .inr ⟨hglobal, hglobal, hk hglobal⟩
  · exact .inl (.inl (.inl ⟨rfl, hf, hglobal⟩))

theorem twin_storesAlike (hs : Settled s live) (haligned : s.globals.length = s.values.length)
    (hext : s.store.Extends s.globalFrame store)
    (hcopy : ∀ f, copy f → f < store.size ∧ store.contents f = s.values) :
    StoresAlike (hs.twin hext hcopy) 0 s.store store := by
  have halike : ∀ f, live f →
      Frame.Alike ((hs.twin hext hcopy).meets 0) (s.store.contents f) (s.store.contents f) :=
    fun f hf => (hs.alike f hf).mono (hs.twin_of_within hext hcopy)
  refine ⟨rfl, rfl, ?_, ?_⟩
  · rintro k f₁ f₂ ((⟨rfl, hf, hne⟩ | ⟨rfl, hf⟩) | ⟨i, hi, -⟩)
    · rw [hext.frames f₁ (hs.lt_size f₁ hf) hne]
      exact halike f₁ hf
    · rw [(hcopy f₂ hf).2]
      exact halike _ hs.global
    · cases hi
  · rintro k f₁ f₂ ⟨rfl, rfl, hk⟩
    -- names and values are aligned, and so the part of the frame that has names is there in both stores
    have hle : k ≤ (s.store.contents s.globalFrame).length := haligned ▸ hk
    obtain ⟨more, hmore⟩ := hext.grown
    rw [← hmore, List.length_append, List.take_append_of_le_length hle]
    exact ⟨hle, Nat.le_add_right_of_le hle, (halike _ hs.global).take k⟩

end Session.Settled

end LispMachine
