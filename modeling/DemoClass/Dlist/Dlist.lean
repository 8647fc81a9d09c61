import DemoClass.Lib.NodeHeap
import DemoClass.Lib.Rings
import Mathlib.Data.Int.Notation

/-!
# The list of `dlist.c`

A circular list with a head that is allocated, whose nodes carry `data_size` bytes behind their
links.  `malloc` returns an address, or `NULL`; what is in the cell at first is arbitrary.  The
functions are given assignment by assignment, and each ends without a dangling address on a list
in use.
-/

namespace DemoClass

namespace Dlist

variable {ι β : Type}

/-- The nodes, each with its `priv`. -/
abbrev Store (ι β : Type) := Heap ι (Nodes ι (List β))

/-- `struct dlist_info` -/
structure DlistInfo (ι : Type) where
  head : ι

/-- `memcpy` of `n` bytes: what is in `dest` behind it. -/
def memcpy (dest src : List β) (n : ℕ) : Option (List β) :=
  if n ≤ dest.length ∧ n ≤ src.length then some (src.take n ++ dest.drop n) else none

/-- `memcpy` to all of the `n` bytes of a new cell. -/
def fill (src : List β) (n : ℕ) : Option (List β) :=
  if n ≤ src.length then some (src.take n) else none

variable [DecidableEq ι]

/-- `dlist_is_empty` -/
def dlistIsEmpty (h : Store ι β) (info : DlistInfo ι) : Comp MemFault ℤ := do
  let next ← h.readNext info.head
  if next = info.head then
    let prev ← h.readPrev info.head
    pure (if prev = info.head then 1 else 0)
  else pure 0

/-- `dlist_add` -/
def dlistAdd (h : Store ι β) (info : DlistInfo ι) (node : Option ι) (data : List β) (size : ℕ) :
    Comp MemFault (Store ι β) :=
  match node with
  | none => pure h
  | some node => do
    let next ← (h.malloc node).readNext info.head
    let h ← (h.malloc node).writeNext node next
    let h ← h.writePrev node info.head
    let h ← h.writeNext info.head node
    let next ← h.readNext node
    let h ← h.writePrev next node
    h.writeData node fun _ => fill data size

/-- `dlist_add_tail` -/
def dlistAddTail (h : Store ι β) (info : DlistInfo ι) (node : Option ι) (data : List β)
    (size : ℕ) : Comp MemFault (Store ι β) :=
  match node with
  | none => pure h
  | some node => do
    let h ← (h.malloc node).writeNext node info.head
    let prev ← h.readPrev info.head
    let h ← h.writePrev node prev
    let h ← h.writePrev info.head node
    let prev ← h.readPrev node
    let h ← h.writeNext prev node
    h.writeData node fun _ => fill data size

/-- `dlist_del` -/
def dlistDel (h : Store ι β) (node : ι) : Comp MemFault (Store ι β) := do
  let next ← h.readNext node
  let prev ← h.readPrev node
  let h ← h.writePrev next prev
  let prev ← h.readPrev node
  let next ← h.readNext node
  let h ← h.writeNext prev next
  let h ← h.writePrev node node
  let h ← h.writeNext node node
  h.free node

/-- `dlist_init`, with the value it returns. -/
def dlistInit (h : Store ι β) (head : Option ι) :
    Comp MemFault (Store ι β × Option (DlistInfo ι) × ℤ) :=
  match head with
  | none => pure (h, none, -1)
  | some head => do
    let h ← (h.malloc head).writeNext head head
    let h ← h.writePrev head head
    pure (h, some ⟨head⟩, 0)

variable {h : Store ι β} {info : DlistInfo ι} {x : ι} {xs ys : List ι} {data : List β} {size : ℕ}

lemma dlistIsEmpty_ends (hl : h.Holds info.head xs) :
    (dlistIsEmpty h info).Ends (.ok (if xs = [] then 1 else 0)) := by
  refine Heap.readNext_bind hl.live_head ?_
  rw [hl.ring.next_head]
  cases xs with
  | nil =>
      rw [List.headD_nil, if_pos rfl]
      refine Heap.readPrev_bind hl.live_head ?_
      rw [hl.ring.prev_head]
      simp
  | cons x xs =>
      have hne : x ≠ info.head := fun he => hl.ring.head_notMem (by simp [he])
      rw [List.headD_cons, if_neg hne]
      simp

/-- The heap with a new cell, linked in. -/
def inserted (h : Store ι β) (x : ι) (l : Links ι) (v : List β) : Store ι β :=
  ((h.malloc x).setLinks l).setData x v

lemma holds_inserted {l : Links ι} {zs : List ι} {head : ι} (hl : h.Holds head xs)
    (hz : zs.Perm (x :: xs)) (hr : l.Ring head zs) (v : List β) :
    (inserted h x l v).Holds head zs := by
  refine ⟨hr, fun y hy => ?_⟩
  rcases List.mem_cons.1 hy with rfl | hy
  · exact Heap.live_malloc hl.live_head x
  · rcases List.mem_cons.1 (hz.mem_iff.1 hy) with rfl | hy
    · exact h.live_malloc_self y
    · exact Heap.live_malloc (hl.live y (List.mem_cons_of_mem _ hy)) x

/-- The two ways to insert link the new cell in between two neighbours. -/
lemma dlistAdd_ends (hl : h.Holds info.head xs) (hx : h.live x = false)
    (hd : size ≤ data.length) :
    (dlistAdd h info (some x) data size).Ends (.ok (inserted h x
      (h.mem.links.spliceIn x info.head (h.mem.links.next info.head)) (data.take size))) := by
  have hne : x ≠ info.head := fun he => hl.notMem hx (by simp [he])
  have hl' := hl.malloc x
  have hlive := h.live_malloc_self x
  refine Heap.readNext_bind hl'.live_head (Heap.writeNext_bind hlive (Heap.writePrev_bind hlive ?_))
  refine Heap.writeNext_bind hl'.live_head (Heap.readNext_bind hlive ?_)
  simp only [Heap.links_setLinks, Heap.setLinks_setLinks, Heap.mem_malloc, Links.setNext_next,
    Links.setPrev_next, Function.update_of_ne hne, Function.update_self]
  refine Heap.writePrev_bind (hl'.live_next List.mem_cons_self) ?_
  exact Heap.writeData_ends hlive (if_pos hd)

lemma dlistAddTail_ends (hl : h.Holds info.head xs) (hx : h.live x = false)
    (hd : size ≤ data.length) :
    (dlistAddTail h info (some x) data size).Ends (.ok (inserted h x
      (h.mem.links.spliceIn x (h.mem.links.prev info.head) info.head) (data.take size))) := by
  have hne : x ≠ info.head := fun he => hl.notMem hx (by simp [he])
  have hl' := hl.malloc x
  have hlive := h.live_malloc_self x
  refine Heap.writeNext_bind hlive (Heap.readPrev_bind hl'.live_head ?_)
  refine Heap.writePrev_bind hlive (Heap.writePrev_bind hl'.live_head (Heap.readPrev_bind hlive ?_))
  simp only [Heap.links_setLinks, Heap.setLinks_setLinks, Heap.mem_malloc, Links.setNext_prev,
    Links.setPrev_prev, Function.update_of_ne hne, Function.update_self]
  refine Heap.writeNext_bind (hl'.live_prev List.mem_cons_self) ?_
  exact Heap.writeData_ends hlive (if_pos hd)

/-- The heap without a cell, which is unlinked. -/
def deleted (h : Store ι β) (x : ι) : Store ι β :=
  ⟨⟨((h.mem.links.unlink x).setPrev x x).setNext x x, h.mem.data⟩,
    Function.update h.live x false⟩

/-- Deleting a node unlinks it and frees it. -/
lemma dlistDel_eq (hl : h.Holds info.head (xs ++ x :: ys)) :
    (dlistDel h x).Ends (.ok (deleted h x)) := by
  have hmem : x ∈ info.head :: (xs ++ x :: ys) := by simp
  have hlive := hl.live x hmem
  refine Heap.readNext_bind hlive (Heap.readPrev_bind hlive ?_)
  refine Heap.writePrev_bind (hl.live_next hmem) (Heap.readPrev_bind hlive ?_)
  refine Heap.readNext_bind hlive (Heap.writeNext_bind ?_ ?_)
  · simpa [Links.prev_setPrev_next] using hl.live_prev hmem
  · refine Heap.writePrev_bind hlive (Heap.writeNext_bind hlive ?_)
    simp only [Heap.links_setLinks, Heap.setLinks_setLinks, Links.setPrev_next,
      Links.prev_setPrev_next, Links.setNext_setPrev_eq_unlink]
    exact Heap.free_ends hlive

lemma dlistDel_ends (hl : h.Holds info.head (xs ++ x :: ys)) : ∃ l : Links ι,
    (dlistDel h x).Ends (.ok ⟨⟨l, h.mem.data⟩, Function.update h.live x false⟩) ∧
      l.Ring info.head (xs ++ ys) :=
  ⟨_, dlistDel_eq hl, hl.ring.unlink.isolate hl.ring.notMem_rest⟩

/-- The rest of the list is still in use. -/
lemma holds_deleted {l : Links ι} {head : ι} (hl : h.Holds head (xs ++ x :: ys))
    (hr : l.Ring head (xs ++ ys)) :
    Heap.Holds (⟨⟨l, h.mem.data⟩, Function.update h.live x false⟩ : Store ι β) head
      (xs ++ ys) := by
  refine ⟨hr, fun y hy => ?_⟩
  have hne : y ≠ x := fun he => hl.ring.notMem_rest (he ▸ hy)
  have hsub : head :: (xs ++ ys) ⊆ head :: (xs ++ x :: ys) := by
    have hsublist := (List.sublist_cons_self x ys).append_left xs
    exact List.cons_subset_cons head hsublist.subset
  show Function.update h.live x false y = true
  rw [Function.update_of_ne hne]
  exact hl.live y (hsub hy)

lemma holds_deleted_self {head : ι} (hl : h.Holds head (xs ++ x :: ys)) :
    (deleted h x).Holds head (xs ++ ys) :=
  holds_deleted hl (hl.ring.unlink.isolate hl.ring.notMem_rest)

/-! ### What is left alone -/

omit [DecidableEq ι] in
lemma within_self {head : ι} (hl : h.Holds head xs) :
    Links.Within {y | y ∈ head :: xs} h.mem.links h.mem.links :=
  ⟨fun _ hy => ⟨hl.ring.next_mem_cons hy, hl.ring.prev_mem_cons hy⟩, fun _ _ => ⟨rfl, rfl⟩⟩

lemma frame_inserted {l : Links ι} {S : List ι} (hS : x ∈ S)
    (hl : ∀ y ∉ S, l.next y = h.mem.links.next y ∧ l.prev y = h.mem.links.prev y) (v : List β) :
    Heap.Frame S h (inserted h x l v) where
  next y hy := (hl y hy).1
  prev y hy := (hl y hy).2
  data _ hy := Function.update_of_ne (ne_of_mem_of_not_mem hS hy).symm _ _
  live _ hy := Function.update_of_ne (ne_of_mem_of_not_mem hS hy).symm _ _

/-- A new cell is linked between two cells of the list. -/
lemma frame_spliced {head p q : ι} (hp : p ∈ head :: xs) (hq : q ∈ head :: xs) (v : List β) :
    Heap.Frame (x :: head :: xs) h (inserted h x (h.mem.links.spliceIn x p q) v) := by
  refine frame_inserted List.mem_cons_self (fun y hy => ?_) v
  have hx : y ≠ x := fun he => hy (he ▸ List.mem_cons_self)
  have hne : ∀ z ∈ head :: xs, y ≠ z := fun z hz he => hy (he ▸ List.mem_cons_of_mem _ hz)
  exact ⟨Links.spliceIn_next_of_ne hx (hne p hp), Links.spliceIn_prev_of_ne hx (hne q hq)⟩

/-- Deleting a node changes its list only. -/
lemma frame_deleted {head : ι} (hl : h.Holds head (xs ++ x :: ys)) :
    Heap.Frame (head :: (xs ++ x :: ys)) h (deleted h x) := by
  have hmem : x ∈ head :: (xs ++ x :: ys) := by simp
  have hw := (((within_self hl).unlink hmem).setPrev hmem hmem).setNext hmem hmem
  refine ⟨fun y hy => (hw.frame y hy).1, fun y hy => (hw.frame y hy).2, fun _ _ => rfl,
    fun y hy => Function.update_of_ne (ne_of_mem_of_not_mem hmem hy).symm _ _⟩

end Dlist

end DemoClass
