import DemoClass.Lib.Heap
import DemoClass.Lib.Ring

/-!
# Linked cells that are allocated and freed

The cells of doubly linked lists on a heap, each with something else in it.  The links are read and
written through the address of a cell, which has to be allocated.  `Heap.Holds` is a list in use: a
ring of allocated cells.
-/

namespace DemoClass

/-- The links of the cells, and what else is in them. -/
structure Nodes (ι π : Type) where
  links : Links ι
  data : ι → π

namespace Heap

variable {ι π β : Type}

def setLinks (h : Heap ι (Nodes ι π)) (l : Links ι) : Heap ι (Nodes ι π) :=
  h.setMem { h.mem with links := l }

/-- `x->next` -/
def readNext (h : Heap ι (Nodes ι π)) (x : ι) : Comp MemFault ι := h.load x fun m => m.links.next x

/-- `x->prev` -/
def readPrev (h : Heap ι (Nodes ι π)) (x : ι) : Comp MemFault ι := h.load x fun m => m.links.prev x

variable [DecidableEq ι]

/-- `x->next = y` -/
def writeNext (h : Heap ι (Nodes ι π)) (x y : ι) : Comp MemFault (Heap ι (Nodes ι π)) :=
  h.store x fun m => { m with links := m.links.setNext x y }

/-- `x->prev = y` -/
def writePrev (h : Heap ι (Nodes ι π)) (x y : ι) : Comp MemFault (Heap ι (Nodes ι π)) :=
  h.store x fun m => { m with links := m.links.setPrev x y }

def setData (h : Heap ι (Nodes ι π)) (x : ι) (v : π) : Heap ι (Nodes ι π) :=
  h.setMem { h.mem with data := Function.update h.mem.data x v }

/-- Write to the rest of a cell, where it is long enough. -/
def writeData (h : Heap ι (Nodes ι π)) (x : ι) (f : π → Option π) :
    Comp MemFault (Heap ι (Nodes ι π)) :=
  h.storeIn x fun m => (f (m.data x)).map fun v => { m with data := Function.update m.data x v }

/-- Off the addresses in `S`, two heaps are the same. -/
structure Frame (S : List ι) (h h' : Heap ι (Nodes ι π)) : Prop where
  next : ∀ y ∉ S, h'.mem.links.next y = h.mem.links.next y
  prev : ∀ y ∉ S, h'.mem.links.prev y = h.mem.links.prev y
  data : ∀ y ∉ S, h'.mem.data y = h.mem.data y
  live : ∀ y ∉ S, h'.live y = h.live y

/-- A list is in use: its head and its cells are allocated, and make up a ring. -/
structure Holds (h : Heap ι (Nodes ι π)) (head : ι) (xs : List ι) : Prop where
  ring : h.mem.links.Ring head xs
  live : ∀ x ∈ head :: xs, h.live x = true

variable {h : Heap ι (Nodes ι π)} {head x y : ι} {xs ys : List ι} {r : Except MemFault β}

omit [DecidableEq ι] in
@[simp] lemma links_setLinks (h : Heap ι (Nodes ι π)) (l : Links ι) :
    (h.setLinks l).mem.links = l := rfl

omit [DecidableEq ι] in
@[simp] lemma data_setLinks (h : Heap ι (Nodes ι π)) (l : Links ι) :
    (h.setLinks l).mem.data = h.mem.data := rfl

omit [DecidableEq ι] in
@[simp] lemma live_setLinks (h : Heap ι (Nodes ι π)) (l : Links ι) :
    (h.setLinks l).live = h.live := rfl

omit [DecidableEq ι] in
@[simp] lemma setLinks_setLinks (h : Heap ι (Nodes ι π)) (l l' : Links ι) :
    (h.setLinks l).setLinks l' = h.setLinks l' := rfl

omit [DecidableEq ι] in
lemma readNext_bind {k : ι → Comp MemFault β} (hx : h.live x = true)
    (hk : (k (h.mem.links.next x)).Ends r) : (h.readNext x >>= k).Ends r :=
  load_bind hx hk

omit [DecidableEq ι] in
lemma readPrev_bind {k : ι → Comp MemFault β} (hx : h.live x = true)
    (hk : (k (h.mem.links.prev x)).Ends r) : (h.readPrev x >>= k).Ends r :=
  load_bind hx hk

lemma writeNext_bind {k : Heap ι (Nodes ι π) → Comp MemFault β} (hx : h.live x = true)
    (hk : (k (h.setLinks (h.mem.links.setNext x y))).Ends r) : (h.writeNext x y >>= k).Ends r :=
  store_bind hx hk

lemma writePrev_bind {k : Heap ι (Nodes ι π) → Comp MemFault β} (hx : h.live x = true)
    (hk : (k (h.setLinks (h.mem.links.setPrev x y))).Ends r) : (h.writePrev x y >>= k).Ends r :=
  store_bind hx hk

@[simp] lemma links_setData (h : Heap ι (Nodes ι π)) (x : ι) (v : π) :
    (h.setData x v).mem.links = h.mem.links := rfl

@[simp] lemma data_setData (h : Heap ι (Nodes ι π)) (x : ι) (v : π) :
    (h.setData x v).mem.data = Function.update h.mem.data x v := rfl

@[simp] lemma live_setData (h : Heap ι (Nodes ι π)) (x : ι) (v : π) :
    (h.setData x v).live = h.live := rfl

lemma writeData_ends {f : π → Option π} {v : π} (hx : h.live x = true)
    (hv : f (h.mem.data x) = some v) : (h.writeData x f).Ends (.ok (h.setData x v)) :=
  storeIn_ends hx (Option.map_eq_some_iff.2 ⟨v, hv, rfl⟩)

lemma writeData_outOfBounds {f : π → Option π} (hx : h.live x = true)
    (hf : f (h.mem.data x) = none) : (h.writeData x f).Ends (.error .outOfBounds) :=
  storeIn_outOfBounds hx (Option.map_eq_none_iff.2 hf)

namespace Holds

omit [DecidableEq ι] in
lemma live_head (hl : h.Holds head xs) : h.live head = true := hl.live head List.mem_cons_self

omit [DecidableEq ι] in
lemma live_next (hl : h.Holds head xs) (hx : x ∈ head :: xs) :
    h.live (h.mem.links.next x) = true :=
  hl.live _ (hl.ring.next_mem_cons hx)

omit [DecidableEq ι] in
lemma live_prev (hl : h.Holds head xs) (hx : x ∈ head :: xs) :
    h.live (h.mem.links.prev x) = true :=
  hl.live _ (hl.ring.prev_mem_cons hx)

omit [DecidableEq ι] in
/-- What `malloc` returns is not in the list. -/
lemma notMem (hl : h.Holds head xs) (hx : h.live x = false) : x ∉ head :: xs := fun hmem => by
  simp [hl.live x hmem] at hx

lemma malloc (hl : h.Holds head xs) (x : ι) : (h.malloc x).Holds head xs :=
  ⟨hl.ring, fun y hy => live_malloc (hl.live y hy) x⟩

end Holds

/-! ### What a change leaves as it is -/

namespace Frame

variable {S T : List ι} {h₁ h₂ h₃ : Heap ι (Nodes ι π)}

omit [DecidableEq ι] in
lemma refl (S : List ι) (h : Heap ι (Nodes ι π)) : Frame S h h :=
  ⟨fun _ _ => rfl, fun _ _ => rfl, fun _ _ => rfl, fun _ _ => rfl⟩

omit [DecidableEq ι] in
lemma mono (hf : Frame S h₁ h₂) (hS : S ⊆ T) : Frame T h₁ h₂ where
  next y hy := hf.next y fun hm => hy (hS hm)
  prev y hy := hf.prev y fun hm => hy (hS hm)
  data y hy := hf.data y fun hm => hy (hS hm)
  live y hy := hf.live y fun hm => hy (hS hm)

omit [DecidableEq ι] in
lemma trans (hf : Frame S h₁ h₂) (hf' : Frame S h₂ h₃) : Frame S h₁ h₃ where
  next y hy := (hf'.next y hy).trans (hf.next y hy)
  prev y hy := (hf'.prev y hy).trans (hf.prev y hy)
  data y hy := (hf'.data y hy).trans (hf.data y hy)
  live y hy := (hf'.live y hy).trans (hf.live y hy)

lemma malloc (h : Heap ι (Nodes ι π)) (x : ι) : Frame [x] h (h.malloc x) where
  next _ _ := rfl
  prev _ _ := rfl
  data _ _ := rfl
  live y hy := Function.update_of_ne (by simpa using hy) _ _

lemma free (h : Heap ι (Nodes ι π)) (x : ι) :
    Frame [x] h ⟨h.mem, Function.update h.live x false⟩ where
  next _ _ := rfl
  prev _ _ := rfl
  data _ _ := rfl
  live y hy := Function.update_of_ne (by simpa using hy) _ _

end Frame

omit [DecidableEq ι] in
/-- A list is not touched by what happens off its cells. -/
lemma Holds.frame {S : List ι} {h' : Heap ι (Nodes ι π)} (hl : h.Holds head xs)
    (hf : Frame S h h') (hS : ∀ y ∈ head :: xs, y ∉ S) : h'.Holds head xs where
  ring := hl.ring.congr (fun y hy => hf.next y (hS y hy)) fun y hy => hf.prev y (hS y hy)
  live y hy := (hf.live y (hS y hy)).trans (hl.live y hy)

end Heap

end DemoClass
