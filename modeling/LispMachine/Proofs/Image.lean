import LispMachine.Bytecode
import LispMachine.Proofs.Nesting
import LispMachine.Proofs.Scoping

/-!
# Objects in the machine

How the machine holds what evaluation speaks of. The image of an object is the same data, with a
function as the code of its body and the frames of its chain; the image of a heap is the store with
the images of its objects. Every operation on objects and heaps has the operation of the machine as
its image.

An object is sound when every function in it has a body that is scoped in its chain, and frames that
exist. Soundness is kept by everything that evaluation does. It is the invariant behind `LD`: a resolved
name has a link in the chain, and the chain has a frame in the store.
-/

namespace LispMachine

/-- The code that a function executes: its body, and the return. -/
def Code.body (parens : Parens) (body : List Expr) : Code :=
  Code.sequence parens.opening (codes body) ++ [instr .rtn parens.span]

namespace Object

mutual
/-- The value that the machine holds for an object. -/
def image : Object → Value
  | .number n => .number n
  | .string text => .string text
  | .symbol name => .symbol name
  | .list items => .list (images items)
  | .closure parens _ body chain => .closure (Code.body parens body) chain.frames
/-- The values for objects. -/
def images : List Object → List Value
  | [] => []
  | o :: os => o.image :: images os
end

@[simp] theorem images_eq_map (os : List Object) : images os = os.map image := by
  induction os with
  | nil => rfl
  | cons o os ih => simp [images, ih]

@[simp] theorem image_list (items : List Object) : image (.list items) = .list (items.map image) := by
  rw [image, images_eq_map]

theorem image_ofLiteral (l : Literal) : (ofLiteral l).image = l.value := by
  cases l <;> rfl

mutual
theorem image_ofDatum : ∀ d : Datum, (ofDatum d).image = d.value
  | .literal l => image_ofLiteral l
  | .word _ => rfl
  | .list items => by
    rw [ofDatum, image_list, Datum.value, image_ofData items]
  | .marked mark datum => by
    rw [ofDatum, image_list, Datum.value, List.map_cons, List.map_cons, List.map_nil,
      image_ofDatum datum]
    rfl
theorem image_ofData : ∀ ds : List Datum, (ofData ds).map image = Datum.values ds
  | [] => rfl
  | d :: ds => by rw [ofData, List.map_cons, Datum.values, image_ofDatum d, image_ofData ds]
end

@[simp] theorem kind_image (o : Object) : o.image.kind = o.kind := by
  cases o with
  | list items => cases items <;> simp [Value.kind, kind]
  | _ => rfl

@[simp] theorem isTruthy_image (o : Object) : o.image.isTruthy = o.isTruthy := by
  cases o with
  | list items => cases items <;> simp [Value.isTruthy, isTruthy]
  | _ => rfl

mutual
theorem nesting_image : ∀ o : Object, o.image.nesting = o.depth
  | .list items => by
    rw [image_list, Value.nesting, depth, nestings_image items]
  | .number _ | .string _ | .symbol _ | .closure .. => rfl
theorem nestings_image : ∀ os : List Object, Value.nestings (os.map image) = depths os
  | [] => rfl
  | o :: os => by
    rw [List.map_cons, Value.nestings, depths, nesting_image o, nestings_image os]
end

@[simp] theorem depth_image (o : Object) : o.image.depth = o.depth := by
  rw [Value.depth_eq_nesting, nesting_image]

end Object

mutual
/-- A template without holes has the value of the datum that it is. -/
theorem Template.value?_eq : ∀ t : Template, t.value? = t.datum?.map Datum.value
  | .hole _ => rfl
  | .datum _ => rfl
  | .list _ items => by
    rw [Template.value?, Template.datum?, Template.values?_eq items]
    cases Template.data? items with
    | none => rfl
    | some ds => rfl
theorem Template.values?_eq : ∀ ts : List Template,
    Template.values? ts = (Template.data? ts).map Datum.values
  | [] => rfl
  | t :: ts => by
    rw [Template.values?, Template.data?, Template.value?_eq t, Template.values?_eq ts]
    cases t.datum? with
    | none => rfl
    | some d =>
      cases Template.data? ts with
      | none => rfl
      | some ds => rfl
end

/-! ## Heaps -/

namespace Heap

/-- The store that the machine holds for a heap. -/
def image (h : Heap) : Store := ⟨h.frames.map (·.map Object.image)⟩

@[simp] theorem image_fresh : fresh.image = Store.empty.alloc [] := by
  simp [fresh, image, Store.alloc, Store.empty]

@[simp] theorem size_image (h : Heap) : h.image.size = h.size := by
  simp [image, Store.size, size]

@[simp] theorem contents_image (h : Heap) (f : FrameId) :
    h.image.contents f = (h.contents f).map Object.image := by
  simp only [image, Store.contents, contents, Array.getD_eq_getD_getElem?, Array.getElem?_map]
  cases h.frames[f]? <;> rfl

@[simp] theorem image_alloc (h : Heap) (objects : List Object) :
    (h.alloc objects).image = h.image.alloc (objects.map Object.image) := by
  simp [image, alloc, Store.alloc]

@[simp] theorem image_fill (h : Heap) (f : FrameId) (objects : List Object) :
    (h.fill f objects).image = h.image.fill f (objects.map Object.image) := by
  simp [image, fill, Store.fill]

@[simp] theorem image_append (h : Heap) (f : FrameId) (o : Object) :
    (h.append f o).image = h.image.append f o.image := by
  simp only [image, append, Store.append, Store.mk.injEq]
  ext i : 1 <;> simp [Array.getElem_modify]
  split <;> simp

@[simp] theorem image_truncate (h : Heap) (f : FrameId) (count : Nat) :
    (h.truncate f count).image = h.image.truncate f count := by
  simp only [image, truncate, Store.truncate, Store.mk.injEq]
  ext i : 1 <;> simp [Array.getElem_modify]
  split <;> simp

@[simp] theorem size_alloc (h : Heap) (objects : List Object) :
    (h.alloc objects).size = h.size + 1 := by
  simp [alloc, size]

@[simp] theorem size_fill (h : Heap) (f : FrameId) (objects : List Object) :
    (h.fill f objects).size = h.size := by
  simp [fill, size]

@[simp] theorem size_append (h : Heap) (f : FrameId) (o : Object) :
    (h.append f o).size = h.size := by
  simp [append, size]

@[simp] theorem size_truncate (h : Heap) (f : FrameId) (count : Nat) :
    (h.truncate f count).size = h.size := by
  simp [truncate, size]

@[simp] theorem contents_fresh (f : FrameId) : fresh.contents f = [] := by
  simp only [contents, fresh, Array.getD_eq_getD_getElem?]
  cases f <;> rfl

theorem contents_alloc (h : Heap) (objects : List Object) (g : FrameId) :
    (h.alloc objects).contents g = if g = h.size then objects else h.contents g := by
  simp only [alloc, contents, size, Array.getD_eq_getD_getElem?, Array.getElem?_push]
  by_cases hg : g = h.frames.size
  · rw [if_pos hg, if_pos hg, Option.getD_some]
  · rw [if_neg hg, if_neg hg]

/-- A new frame leaves the older ones as they are. -/
theorem contents_alloc_of_lt {h : Heap} {g : FrameId} (hg : g < h.size) (objects : List Object) :
    (h.alloc objects).contents g = h.contents g := by
  rw [contents_alloc, if_neg (Nat.ne_of_lt hg)]

theorem contents_fill (h : Heap) (f : FrameId) (objects : List Object) (g : FrameId) :
    (h.fill f objects).contents g = if g = f ∧ f < h.size then objects else h.contents g := by
  simp only [fill, contents, size, Array.getD_eq_getD_getElem?, Array.getElem?_setIfInBounds]
  grind

/-- A frame that is filled leaves the others as they are. -/
theorem contents_fill_of_ne {f g : FrameId} (hne : g ≠ f) (h : Heap) (objects : List Object) :
    (h.fill f objects).contents g = h.contents g := by
  rw [contents_fill, if_neg fun hc => hne hc.1]

theorem contents_append (h : Heap) (f : FrameId) (o : Object) (g : FrameId) :
    (h.append f o).contents g =
      if g = f ∧ f < h.size then h.contents g ++ [o] else h.contents g := by
  simp only [append, contents, size, Array.getD_eq_getD_getElem?, Array.getElem?_modify]
  grind

theorem contents_truncate (h : Heap) (f : FrameId) (count : Nat) (g : FrameId) :
    (h.truncate f count).contents g =
      if g = f then (h.contents g).take count else h.contents g := by
  simp only [truncate, contents, Array.getD_eq_getD_getElem?, Array.getElem?_modify]
  grind

end Heap

/-! ## Soundness -/

section
variable (site : Site)

mutual
/-- Every function in an object has a scoped body, and only frames below a bound. -/
def Object.Sound (bound : Nat) : Object → Prop
  | .list items => SoundAll bound items
  | .closure _ params body chain =>
    (∀ f ∈ chain.frames, f < bound) ∧ body ≠ [] ∧ ScopedAll site (params :: chain.names) body
  | _ => True
/-- Every one of some objects is sound. -/
def SoundAll (bound : Nat) : List Object → Prop
  | [] => True
  | o :: os => o.Sound bound ∧ SoundAll bound os
end

/-- Every object in a heap is sound, with no frames but those of the heap. -/
def Heap.Sound (h : Heap) : Prop := ∀ f, ∀ o ∈ h.contents f, o.Sound site h.size

variable {site}

@[simp] theorem soundAll_iff {bound : Nat} {os : List Object} :
    SoundAll site bound os ↔ ∀ o ∈ os, o.Sound site bound := by
  induction os with
  | nil => simp [SoundAll]
  | cons o os ih => simp [SoundAll, ih]

@[simp] theorem sound_list_iff {bound : Nat} {items : List Object} :
    (Object.list items).Sound site bound ↔ ∀ o ∈ items, o.Sound site bound := by
  rw [Object.Sound, soundAll_iff]

namespace Object.Sound

mutual
/-- A sound object stays sound when there are more frames. -/
theorem mono {m n : Nat} (hle : m ≤ n) : ∀ {o : Object}, o.Sound site m → o.Sound site n
  | .list _, h => by
    rw [Object.Sound] at h ⊢
    exact monoAll hle h
  -- only the frames of a chain are bounded: the scopes do not speak of the store
  | .closure .., ⟨hf, hbody⟩ => ⟨fun f hm => Nat.lt_of_lt_of_le (hf f hm) hle, hbody⟩
  | .number _, _ | .string _, _ | .symbol _, _ => trivial
theorem monoAll {m n : Nat} (hle : m ≤ n) : ∀ {os : List Object}, SoundAll site m os → SoundAll site n os
  | [], _ => trivial
  | _ :: _, ⟨ho, hos⟩ => ⟨mono hle ho, monoAll hle hos⟩
end

theorem ofLiteral (bound : Nat) (l : Literal) : (Object.ofLiteral l).Sound site bound := by
  cases l <;> trivial

mutual
theorem ofDatum (bound : Nat) : ∀ d : Datum, (Object.ofDatum d).Sound site bound
  | .literal l => ofLiteral bound l
  | .word _ => trivial
  | .list items => ofData bound items
  | .marked _ datum => ⟨trivial, ofDatum bound datum, trivial⟩
theorem ofData (bound : Nat) : ∀ ds : List Datum, SoundAll site bound (Object.ofData ds)
  | [] => trivial
  | d :: ds => ⟨ofDatum bound d, ofData bound ds⟩
end

end Object.Sound

namespace Heap.Sound
variable {h : Heap}

theorem alloc (hs : h.Sound site) {objects : List Object}
    (ho : ∀ o ∈ objects, o.Sound site h.size) : (h.alloc objects).Sound site := by
  intro f o hm
  rw [contents_alloc] at hm
  rw [size_alloc]
  split at hm
  · exact (ho o hm).mono (Nat.le_succ _)
  · exact (hs f o hm).mono (Nat.le_succ _)

theorem fill (hs : h.Sound site) (f : FrameId) {objects : List Object}
    (ho : ∀ o ∈ objects, o.Sound site h.size) : (h.fill f objects).Sound site := by
  intro g o hm
  rw [contents_fill] at hm
  rw [size_fill]
  split at hm
  · exact ho o hm
  · exact hs g o hm

theorem append (hs : h.Sound site) (f : FrameId) {o : Object} (ho : o.Sound site h.size) :
    (h.append f o).Sound site := by
  intro g p hm
  rw [contents_append] at hm
  rw [size_append]
  split at hm
  · rcases List.mem_append.mp hm with hm | hm
    · exact hs g p hm
    · rw [List.mem_singleton] at hm
      exact hm ▸ ho
  · exact hs g p hm

theorem truncate (hs : h.Sound site) (f : FrameId) (count : Nat) :
    (h.truncate f count).Sound site := by
  intro g o hm
  rw [contents_truncate] at hm
  rw [size_truncate]
  split at hm
  · exact hs g o (List.mem_of_mem_take hm)
  · exact hs g o hm

end Heap.Sound

end

end LispMachine
