import LispMachine.Proofs.Alike

/-!
# Stores of two runs

Two runs that go together make their frames at the same time, so that the frames which are younger than
the runs belong together in the order in which they were made. Of the frames that are older, a pairing
says which belong together, and how: as a whole, or as far as a link has names. One frame may have
several partners.

A pairing stays what it is while the runs go on. What the stores hold in frames that belong together is
alike (`StoresAlike`), and stays so when both runs make a frame (`StoresAlike.alloc`), fill one of their
own frames (`StoresAlike.fill`), or add to a frame that has one partner (`StoresAlike.append`). A
variable is then the same in both runs (`StoresAlike.load`).
-/

namespace LispMachine

open Object (AlikeAll)

/-- Frames of two runs that hold the images of objects which are alike one by one. -/
def Frame.Alike (meets : Meeting) (vs₁ vs₂ : Frame) : Prop :=
  ∃ os₁ os₂ : List Object, os₁.map Object.image = vs₁ ∧ os₂.map Object.image = vs₂ ∧
    AlikeAll meets os₁ os₂

/-- Which frames that are older than two runs belong together. -/
structure Pairing where
  /-- Frames that hold the same as a whole. -/
  whole : Meeting
  /-- Frames that hold the same as far as a link has names. -/
  part : Meeting
  /-- The frames of the first run that are older than it lie below this bound. -/
  base₁ : Nat
  /-- The frames of the second run that are older than it lie below this bound. -/
  base₂ : Nat
  whole_lt : ∀ {k f₁ f₂ : Nat}, whole k f₁ f₂ → f₁ < base₁ ∧ f₂ < base₂
  part_lt : ∀ {k f₁ f₂ : Nat}, part k f₁ f₂ → f₁ < base₁ ∧ f₂ < base₂

namespace Pairing

/-- Which frames hold the same as a whole when each run has made so many frames of its own. -/
def same (w : Pairing) (made : Nat) : Meeting := fun k f₁ f₂ =>
  w.whole k f₁ f₂ ∨ ∃ i, i < made ∧ f₁ = w.base₁ + i ∧ f₂ = w.base₂ + i

/-- Which frames belong together when each run has made so many frames of its own. -/
def meets (w : Pairing) (made : Nat) : Meeting := fun k f₁ f₂ =>
  w.same made k f₁ f₂ ∨ w.part k f₁ f₂

variable {w : Pairing} {n n' k f₁ f₂ : Nat}

theorem meets_mono (hle : n ≤ n') (h : w.meets n k f₁ f₂) : w.meets n' k f₁ f₂ := by
  rcases h with (h | ⟨i, hi, h⟩) | h
  · exact .inl (.inl h)
  · exact .inl (.inr ⟨i, Nat.lt_of_lt_of_le hi hle, h⟩)
  · exact .inr h

/-- The frames that both runs make next belong together. -/
theorem same_next (w : Pairing) (n k : Nat) : w.same (n + 1) k (w.base₁ + n) (w.base₂ + n) :=
  .inr ⟨n, Nat.lt_succ_self n, rfl, rfl⟩

/-- The frames that both runs make next are the only new ones that belong together. -/
theorem same_succ (h : w.same (n + 1) k f₁ f₂) :
    w.same n k f₁ f₂ ∨ f₁ = w.base₁ + n ∧ f₂ = w.base₂ + n := by
  rcases h with h | ⟨i, hi, h₁, h₂⟩
  · exact .inl (.inl h)
  · rcases Nat.lt_succ_iff_lt_or_eq.mp hi with hlt | rfl
    · exact .inl (.inr ⟨i, hlt, h₁, h₂⟩)
    · exact .inr ⟨h₁, h₂⟩

theorem same_lt (h : w.same n k f₁ f₂) : f₁ < w.base₁ + n ∧ f₂ < w.base₂ + n := by
  rcases h with h | ⟨i, hi, rfl, rfl⟩
  · have hlt := w.whole_lt h
    omega
  · omega

/-- A frame that the first run has made is paired with the one that the second run has made at the same
time, and with no other. -/
theorem same_young (h : w.same n k f₁ f₂) (i : Nat) : f₁ = w.base₁ + i ↔ f₂ = w.base₂ + i := by
  rcases h with h | ⟨j, hj, rfl, rfl⟩
  · have hlt := w.whole_lt h
    omega
  · omega

end Pairing

section
variable {w : Pairing} {n n' : Nat}

theorem Chain.Alike.later {c₁ c₂ : Chain} (h : c₁.Alike (w.meets n) c₂) (hle : n ≤ n') :
    c₁.Alike (w.meets n') c₂ :=
  h.mono (Pairing.meets_mono hle)

theorem Object.Alike.later {o₁ o₂ : Object} (h : o₁.Alike (w.meets n) o₂) (hle : n ≤ n') :
    o₁.Alike (w.meets n') o₂ :=
  h.mono (Pairing.meets_mono hle)

namespace Frame.Alike
variable {meets meets' : Meeting} {vs₁ vs₂ : Frame}

theorem mono (himp : ∀ {k f₁ f₂ : Nat}, meets k f₁ f₂ → meets' k f₁ f₂) (h : Frame.Alike meets vs₁ vs₂) :
    Frame.Alike meets' vs₁ vs₂ := by
  obtain ⟨os₁, os₂, h₁, h₂, hos⟩ := h
  exact ⟨os₁, os₂, h₁, h₂, Object.Alike.monoAll himp hos⟩

theorem of_objects {os₁ os₂ : List Object} (h : AlikeAll meets os₁ os₂) :
    Frame.Alike meets (os₁.map Object.image) (os₂.map Object.image) :=
  ⟨os₁, os₂, rfl, rfl, h⟩

theorem append {o₁ o₂ : Object} (h : Frame.Alike meets vs₁ vs₂) (ho : o₁.Alike meets o₂) :
    Frame.Alike meets (vs₁ ++ [o₁.image]) (vs₂ ++ [o₂.image]) := by
  obtain ⟨os₁, os₂, rfl, rfl, hos⟩ := h
  exact ⟨os₁ ++ [o₁], os₂ ++ [o₂], List.map_append, List.map_append, hos.append (.cons ho .nil)⟩

theorem take (h : Frame.Alike meets vs₁ vs₂) (k : Nat) : Frame.Alike meets (vs₁.take k) (vs₂.take k) := by
  obtain ⟨os₁, os₂, rfl, rfl, hos⟩ := h
  exact ⟨os₁.take k, os₂.take k, List.map_take, List.map_take, hos.take k⟩

theorem length_eq (h : Frame.Alike meets vs₁ vs₂) : vs₁.length = vs₂.length := by
  obtain ⟨os₁, os₂, rfl, rfl, hos⟩ := h
  rw [List.length_map, List.length_map, hos.length_eq]

/-- At each place there are images of objects that are alike, or none. -/
theorem getElem? (h : Frame.Alike meets vs₁ vs₂) (i : Nat) :
    (∃ o₁ o₂ : Object, vs₁[i]? = some o₁.image ∧ vs₂[i]? = some o₂.image ∧ o₁.Alike meets o₂) ∨
    vs₁[i]? = none ∧ vs₂[i]? = none := by
  obtain ⟨os₁, os₂, rfl, rfl, hos⟩ := h
  rw [List.getElem?_map, List.getElem?_map]
  rcases hos.getElem? i with ⟨o₁, o₂, h₁, h₂, ho⟩ | ⟨h₁, h₂⟩
  · rw [h₁, h₂]
    exact .inl ⟨o₁, o₂, rfl, rfl, ho⟩
  · rw [h₁, h₂]
    exact .inr ⟨rfl, rfl⟩

end Frame.Alike

/-! ## Stores -/

/-- The stores of two runs that have made so many frames each: frames that belong together hold what is
alike. -/
structure StoresAlike (w : Pairing) (n : Nat) (s₁ s₂ : Store) : Prop where
  size₁ : s₁.size = w.base₁ + n
  size₂ : s₂.size = w.base₂ + n
  same : ∀ {k f₁ f₂ : Nat}, w.same n k f₁ f₂ → Frame.Alike (w.meets n) (s₁.contents f₁) (s₂.contents f₂)
  part : ∀ {k f₁ f₂ : Nat}, w.part k f₁ f₂ →
    k ≤ (s₁.contents f₁).length ∧ k ≤ (s₂.contents f₂).length ∧
      Frame.Alike (w.meets n) ((s₁.contents f₁).take k) ((s₂.contents f₂).take k)

namespace StoresAlike
variable {s₁ s₂ s₁' s₂' : Store}

/-- What a change has to do with frames that belong together: those that are partners as far as a link
has names only grow, and those that are partners as a whole stay as they are or get new contents that
are alike. -/
theorem change (h : StoresAlike w n s₁ s₂) (hle : n ≤ n') (hsize₁ : s₁'.size = w.base₁ + n')
    (hsize₂ : s₂'.size = w.base₂ + n')
    (hsame : ∀ {k f₁ f₂ : Nat}, w.same n' k f₁ f₂ →
      Frame.Alike (w.meets n') (s₁'.contents f₁) (s₂'.contents f₂) ∨
      w.same n k f₁ f₂ ∧ s₁'.contents f₁ = s₁.contents f₁ ∧ s₂'.contents f₂ = s₂.contents f₂)
    (hpart : ∀ {k f₁ f₂ : Nat}, w.part k f₁ f₂ →
      s₁.contents f₁ <+: s₁'.contents f₁ ∧ s₂.contents f₂ <+: s₂'.contents f₂) :
    StoresAlike w n' s₁' s₂' := by
  refine ⟨hsize₁, hsize₂, ?_, ?_⟩
  · intro k f₁ f₂ hf
    rcases hsame hf with hnew | ⟨hf', h₁, h₂⟩
    · exact hnew
    · rw [h₁, h₂]
      exact (h.same hf').mono (Pairing.meets_mono hle)
  · intro k f₁ f₂ hf
    obtain ⟨⟨more₁, h₁⟩, ⟨more₂, h₂⟩⟩ := hpart hf
    obtain ⟨hk₁, hk₂, halike⟩ := h.part hf
    rw [← h₁, ← h₂, List.take_append_of_le_length hk₁, List.take_append_of_le_length hk₂,
      List.length_append, List.length_append]
    exact ⟨by omega, by omega, halike.mono (Pairing.meets_mono hle)⟩

/-- Both runs make a frame. -/
theorem alloc (h : StoresAlike w n s₁ s₂) {os₁ os₂ : List Object} (hos : AlikeAll (w.meets n) os₁ os₂) :
    StoresAlike w (n + 1) (s₁.alloc (os₁.map Object.image)) (s₂.alloc (os₂.map Object.image)) := by
  have hsize₁ := h.size₁
  have hsize₂ := h.size₂
  refine h.change (Nat.le_succ n) ?_ ?_ ?_ ?_
  · rw [Store.size_alloc, hsize₁, Nat.add_assoc]
  · rw [Store.size_alloc, hsize₂, Nat.add_assoc]
  · intro k f₁ f₂ hf
    rw [Store.contents_alloc, Store.contents_alloc, hsize₁, hsize₂]
    -- the two frames made now are paired with each other, and every older pair is untouched
    rcases Pairing.same_succ hf with hf' | ⟨rfl, rfl⟩
    · obtain ⟨hf₁, hf₂⟩ := Pairing.same_lt hf'
      rw [if_neg (Nat.ne_of_lt hf₁), if_neg (Nat.ne_of_lt hf₂)]
      exact .inr ⟨hf', rfl, rfl⟩
    · rw [if_pos rfl, if_pos rfl]
      exact .inl (Frame.Alike.mono (Pairing.meets_mono (Nat.le_succ n)) (.of_objects hos))
  · intro k f₁ f₂ hf
    obtain ⟨hf₁, hf₂⟩ := w.part_lt hf
    have hne₁ : f₁ ≠ s₁.size := by omega
    have hne₂ : f₂ ≠ s₂.size := by omega
    rw [Store.contents_alloc, Store.contents_alloc, if_neg hne₁, if_neg hne₂]
    exact ⟨List.prefix_rfl, List.prefix_rfl⟩

/-- Both runs fill a frame that they have made at the same time. -/
theorem fill (h : StoresAlike w n s₁ s₂) {i : Nat} (hi : i < n) {os₁ os₂ : List Object}
    (hos : AlikeAll (w.meets n) os₁ os₂) :
    StoresAlike w n (s₁.fill (w.base₁ + i) (os₁.map Object.image))
      (s₂.fill (w.base₂ + i) (os₂.map Object.image)) := by
  have hsize₁ := h.size₁
  have hsize₂ := h.size₂
  have hlt₁ : w.base₁ + i < s₁.size := by omega
  have hlt₂ : w.base₂ + i < s₂.size := by omega
  refine h.change (Nat.le_refl n) ?_ ?_ ?_ ?_
  · rw [Store.size_fill, hsize₁]
  · rw [Store.size_fill, hsize₂]
  · intro k f₁ f₂ hf
    rw [Store.contents_fill, Store.contents_fill]
    -- own frames are paired one to one, so both sides of a pair are filled or neither is
    by_cases hfilled : f₁ = w.base₁ + i
    · rw [if_pos ⟨hfilled, hlt₁⟩, if_pos ⟨(Pairing.same_young hf i).mp hfilled, hlt₂⟩]
      exact .inl (.of_objects hos)
    · have hother : f₂ ≠ w.base₂ + i := fun h₂ => hfilled ((Pairing.same_young hf i).mpr h₂)
      rw [if_neg fun h₁ => hfilled h₁.1, if_neg fun h₂ => hother h₂.1]
      exact .inr ⟨hf, rfl, rfl⟩
  · intro k f₁ f₂ hf
    obtain ⟨hf₁, hf₂⟩ := w.part_lt hf
    have hne₁ : f₁ ≠ w.base₁ + i := by omega
    have hne₂ : f₂ ≠ w.base₂ + i := by omega
    rw [Store.contents_fill, Store.contents_fill, if_neg fun h₁ => hne₁ h₁.1,
      if_neg fun h₂ => hne₂ h₂.1]
    exact ⟨List.prefix_rfl, List.prefix_rfl⟩

end StoresAlike

/-- Both runs may define something: their global frames are older than they are, and have no other
partners as a whole. -/
structure Pairing.Defines (w : Pairing) (g₁ g₂ : Nat) : Prop where
  lt₁ : g₁ < w.base₁
  lt₂ : g₂ < w.base₂
  alone : ∀ {k f₁ f₂ : Nat}, w.whole k f₁ f₂ → (f₁ = g₁ ↔ f₂ = g₂)

namespace StoresAlike
variable {s₁ s₂ : Store}

/-- Both runs add to their global frames. -/
theorem append (h : StoresAlike w n s₁ s₂) {g₁ g₂ : Nat} (hg : w.Defines g₁ g₂) {o₁ o₂ : Object}
    (ho : o₁.Alike (w.meets n) o₂) :
    StoresAlike w n (s₁.append g₁ o₁.image) (s₂.append g₂ o₂.image) := by
  have hsize₁ := h.size₁
  have hsize₂ := h.size₂
  have hbase₁ := hg.lt₁
  have hbase₂ := hg.lt₂
  have hlt₁ : g₁ < s₁.size := by omega
  have hlt₂ : g₂ < s₂.size := by omega
  refine h.change (Nat.le_refl n) ?_ ?_ ?_ ?_
  · rw [Store.size_append, hsize₁]
  · rw [Store.size_append, hsize₂]
  · intro k f₁ f₂ hf
    -- the global frames are paired with each other only, so no pair is changed on one side
    have halone : f₁ = g₁ ↔ f₂ = g₂ := by
      rcases hf with hf | ⟨i, -, rfl, rfl⟩
      · exact hg.alone hf
      · omega
    rw [Store.contents_append, Store.contents_append]
    by_cases hglobal : f₁ = g₁
    · rw [if_pos ⟨hglobal, hlt₁⟩, if_pos ⟨halone.mp hglobal, hlt₂⟩]
      exact .inl ((h.same hf).append ho)
    · rw [if_neg fun h₁ => hglobal h₁.1, if_neg fun h₂ => hglobal (halone.mpr h₂.1)]
      exact .inr ⟨hf, rfl, rfl⟩
  · intro k f₁ f₂ hf
    rw [Store.contents_append, Store.contents_append]
    constructor
    · split
      · exact List.prefix_append _ _
      · exact List.prefix_rfl
    · split
      · exact List.prefix_append _ _
      · exact List.prefix_rfl

/-- What is looked up in frames that belong together, at a place that the link has a name for. -/
theorem get? (h : StoresAlike w n s₁ s₂) {k f₁ f₂ : Nat} (hf : w.meets n k f₁ f₂) {i : Nat}
    (hi : i < k) :
    (∃ o₁ o₂ : Object, s₁.get? f₁ i = some o₁.image ∧ s₂.get? f₂ i = some o₂.image ∧
      o₁.Alike (w.meets n) o₂) ∨
    s₁.get? f₁ i = none ∧ s₂.get? f₂ i = none ∧ (s₁.contents f₁).length = (s₂.contents f₂).length := by
  rcases hf with hf | hf
  · rcases (h.same hf).getElem? i with hsome | ⟨h₁, h₂⟩
    · exact .inl hsome
    · exact .inr ⟨h₁, h₂, (h.same hf).length_eq⟩
  · obtain ⟨hk₁, hk₂, halike⟩ := h.part hf
    rcases halike.getElem? i with ⟨o₁, o₂, h₁, h₂, ho⟩ | ⟨h₁, -⟩
    · rw [List.getElem?_take_of_lt hi] at h₁ h₂
      exact .inl ⟨o₁, o₂, h₁, h₂, ho⟩
    -- a place that the link has a name for is filled in both frames
    · rw [List.getElem?_take_of_lt hi, List.getElem?_eq_none_iff] at h₁
      omega

/-- A variable is alike in both runs, or it is missing in both. -/
theorem load (h : StoresAlike w n s₁ s₂) {c₁ c₂ : Chain} (hc : c₁.Alike (w.meets n) c₂) {name : String}
    {a : Address} (hres : Scope.resolveIn name c₁.names = some a)
    (hlen : c₁.names.length ≤ maxNesting) :
    (∃ o₁ o₂ : Object, s₁.load c₁.frames (.ofIndex a.depth) (.ofIndex a.offset) = .ok o₁.image ∧
      s₂.load c₂.frames (.ofIndex a.depth) (.ofIndex a.offset) = .ok o₂.image ∧
      o₁.Alike (w.meets n) o₂) ∨
    ∃ e, s₁.load c₁.frames (.ofIndex a.depth) (.ofIndex a.offset) = .error e ∧
      s₂.load c₂.frames (.ofIndex a.depth) (.ofIndex a.offset) = .error e := by
  obtain ⟨k, f₁, f₂, hframe₁, hframe₂, hoffset, hmeets⟩ := hc.resolve hres
  have hdepth := Scope.toInt_depth hres hlen
  rw [Store.load_of_toInt hdepth (Number.toInt_ofIndex a.offset) hframe₁,
    Store.load_of_toInt hdepth (Number.toInt_ofIndex a.offset) hframe₂]
  have hlt : min a.offset Number.greatest.toNat < k := by omega
  rcases h.get? hmeets hlt with ⟨o₁, o₂, h₁, h₂, ho⟩ | ⟨h₁, h₂, hlength⟩
  · rw [h₁, h₂]
    exact .inl ⟨o₁, o₂, rfl, rfl, ho⟩
  · rw [h₁, h₂, hlength]
    exact .inr ⟨_, rfl, rfl⟩

end StoresAlike

end

end LispMachine
