import DemoClass.Lib.Calls
import DemoClass.Lib.Heap
import DemoClass.Lib.Segment
import Mathlib.Data.Int.Notation

/-!
# The circular list with a head (`01head_loop_slist.c`)

The nodes are allocated by the functions that insert them, and freed by `slist_del`; the list goes
round by `next` from the head and back to it.  `slist_invert` turns one link after the other round,
with what is turned already behind `Prev` (`invert_loop`).  `ring_refines`: every sequence of
calls on a new list does to it what it does to a sequence of numbers.
-/

namespace DemoClass

namespace HeadLoop

variable {ι : Type}

/-- The members of the nodes. -/
structure NodeInfo (ι : Type) where
  next : ι → ι
  data : ι → ℤ

/-- The nodes, and those that are allocated. -/
abbrev Store (ι : Type) := Heap ι (NodeInfo ι)

/-- `x->next` -/
def readNext (h : Store ι) (x : ι) : Comp MemFault ι := h.load x fun m => m.next x

/-- `x->data` -/
def readData (h : Store ι) (x : ι) : Comp MemFault ℤ := h.load x fun m => m.data x

variable [DecidableEq ι]

/-- `x->next = y` -/
def writeNext (h : Store ι) (x y : ι) : Comp MemFault (Store ι) :=
  h.store x fun m => { m with next := Function.update m.next x y }

/-- `x->data = d` -/
def writeData (h : Store ι) (x : ι) (d : ℤ) : Comp MemFault (Store ι) :=
  h.store x fun m => { m with data := Function.update m.data x d }

/-- `slist_init` -/
def slistInit (h : Store ι) (phead : Option ι) : Comp MemFault (Store ι × Option ι) :=
  match phead with
  | none => pure (h, none)
  | some phead => do
    let h ← writeData (h.malloc phead) phead 0
    let h ← writeNext h phead phead
    pure (h, some phead)

/-- `slist_add` -/
def slistAdd (h : Store ι) (phead : ι) (newNode : Option ι) (data : ℤ) :
    Comp MemFault (Store ι × ℤ) :=
  match newNode with
  | none => pure (h, -1)
  | some newNode => do
    let h ← writeData (h.malloc newNode) newNode data
    let next ← readNext h phead
    let h ← writeNext h newNode next
    let h ← writeNext h phead newNode
    -- there is no `return` in front of `err_malloc`
    pure (h, -1)

/-- A round of the loop of `slist_add_tail`. -/
def tailBody (h : Store ι) (phead tail : ι) : Comp MemFault (ι ⊕ ι) := do
  let next ← readNext h tail
  if next = phead then pure (.inr tail) else pure (.inl next)

/-- `slist_add_tail` -/
def slistAddTail (h : Store ι) (phead : ι) (newNode : Option ι) (data : ℤ) :
    Comp MemFault (Store ι × ℤ) :=
  match newNode with
  | none => pure (h, -1)
  | some newNode => do
    let h ← writeData (h.malloc newNode) newNode data
    let tail ← readNext h phead
    let tail ← Comp.loop (tailBody h phead) tail
    let next ← readNext h tail
    let h ← writeNext h newNode next
    let h ← writeNext h tail newNode
    -- as in `slist_add`
    pure (h, -1)

/-- A round of the loop of `slist_del`, on `cur` and `Prev`. -/
def delBody (h : Store ι) (phead : ι) (data : ℤ) (w : ι × ι) :
    Comp MemFault ((ι × ι) ⊕ (Store ι × ℤ)) :=
  if w.1 = phead then pure (.inr (h, -1))
  else do
    let next ← readNext h w.1
    let d ← readData h w.1
    if d = data then
      let h ← writeNext h w.2 next
      let h ← writeNext h w.1 w.1
      let h ← h.free w.1
      pure (.inr (h, 0))
    else pure (.inl (next, w.1))

/-- `slist_del` -/
def slistDel (h : Store ι) (phead : ι) (data : ℤ) : Comp MemFault (Store ι × ℤ) := do
  let cur ← readNext h phead
  Comp.loop (delBody h phead data) (cur, phead)

/-- A round of the loop of `slist_for_each`, on `cur` and what is printed. -/
def forEachBody (h : Store ι) (phead : ι) (w : ι × List ℤ) :
    Comp MemFault ((ι × List ℤ) ⊕ List ℤ) :=
  if w.1 = phead then pure (.inr w.2)
  else do
    let d ← readData h w.1
    let next ← readNext h w.1
    pure (.inl (next, w.2 ++ [d]))

/-- `slist_for_each`: the numbers it prints. -/
def slistForEach (h : Store ι) (phead : ι) : Comp MemFault (List ℤ) := do
  let cur ← readNext h phead
  Comp.loop (forEachBody h phead) (cur, [])

/-- `__slist_for_each_invert`, which prints a node's number behind those of the nodes that follow
it. -/
def _slistForEachInvert (h : Store ι) (phead : ι) : Comp.RecBody MemFault ι (List ℤ) where
  body call node :=
    if node = phead then pure []
    else do
      let next ← readNext h node
      let out ← call next
      let d ← readData h node
      pure (out ++ [d])
  le := by
    intro f g n hle node
    split
    · exact Comp.LeUpTo.refl n _
    · exact (Comp.LeUpTo.refl n _).bind fun next => (hle next).bind fun _ => Comp.LeUpTo.refl n _

/-- `slist_for_each_invert` -/
def slistForEachInvert (h : Store ι) (phead : ι) : Comp MemFault (List ℤ) := do
  let next ← readNext h phead
  Comp.recur (_slistForEachInvert h phead) next

/-- A round of the loop of `slist_invert`, on the nodes, `Prev` and `cur`. -/
def invertBody (phead : ι) (w : Store ι × ι × ι) :
    Comp MemFault ((Store ι × ι × ι) ⊕ (Store ι × ι)) :=
  if w.2.2 = phead then pure (.inr (w.1, w.2.1))
  else do
    let next ← readNext w.1 w.2.2
    let h ← writeNext w.1 w.2.2 w.2.1
    pure (.inl (h, w.2.2, next))

/-- `slist_invert` -/
def slistInvert (h : Store ι) (phead : ι) : Comp MemFault (Store ι) := do
  let cur ← readNext h phead
  let r ← Comp.loop (invertBody phead) (h, phead, cur)
  writeNext r.1 phead r.2

/-! ### The list in use -/

/-- The nodes `xs` are allocated and lead from the head back to it. -/
structure Holds (h : Store ι) (phead : ι) (xs : List ι) : Prop where
  nodup : (phead :: xs).Nodup
  seg : Seg h.mem.next id (h.mem.next phead) xs phead
  live : ∀ x ∈ phead :: xs, h.live x = true

variable {h : Store ι} {phead x : ι} {us vs xs ds : List ι} {data : ℤ}

omit [DecidableEq ι] in
lemma readNext_bind {β : Type} {k : ι → Comp MemFault β} {r : Except MemFault β}
    (hx : h.live x = true) (hk : (k (h.mem.next x)).Ends r) : (readNext h x >>= k).Ends r :=
  Heap.load_bind hx hk

omit [DecidableEq ι] in
lemma readData_bind {β : Type} {k : ℤ → Comp MemFault β} {r : Except MemFault β}
    (hx : h.live x = true) (hk : (k (h.mem.data x)).Ends r) : (readData h x >>= k).Ends r :=
  Heap.load_bind hx hk

/-- The nodes with another link. -/
def setNext (h : Store ι) (x y : ι) : Store ι :=
  h.setMem { h.mem with next := Function.update h.mem.next x y }

@[simp] lemma next_setNext (h : Store ι) (x y : ι) :
    (setNext h x y).mem.next = Function.update h.mem.next x y := rfl

@[simp] lemma data_setNext (h : Store ι) (x y : ι) : (setNext h x y).mem.data = h.mem.data := rfl

@[simp] lemma live_setNext (h : Store ι) (x y : ι) : (setNext h x y).live = h.live := rfl

lemma writeNext_ends (hx : h.live x = true) (y : ι) :
    (writeNext h x y).Ends (.ok (setNext h x y)) :=
  Heap.store_ends hx _

lemma writeNext_bind {β : Type} {k : Store ι → Comp MemFault β} {r : Except MemFault β} {y : ι}
    (hx : h.live x = true) (hk : (k (setNext h x y)).Ends r) : (writeNext h x y >>= k).Ends r :=
  (writeNext_ends hx y).bind hk

/-- A new node with a number, not linked yet. -/
def newNode (h : Store ι) (x : ι) (data : ℤ) : Store ι :=
  (h.malloc x).setMem { h.mem with data := Function.update h.mem.data x data }

@[simp] lemma next_newNode (h : Store ι) (x : ι) (data : ℤ) :
    (newNode h x data).mem.next = h.mem.next := rfl

@[simp] lemma data_newNode (h : Store ι) (x : ι) (data : ℤ) :
    (newNode h x data).mem.data = Function.update h.mem.data x data := rfl

lemma newNode_bind {β : Type} {k : Store ι → Comp MemFault β} {r : Except MemFault β}
    (hk : (k (newNode h x data)).Ends r) : (writeData (h.malloc x) x data >>= k).Ends r :=
  Heap.store_bind (h.live_malloc_self x) hk

namespace Holds

omit [DecidableEq ι] in
lemma head_notMem (hl : Holds h phead xs) : phead ∉ xs := (List.nodup_cons.1 hl.nodup).1

omit [DecidableEq ι] in
lemma live_head (hl : Holds h phead xs) : h.live phead = true := hl.live phead List.mem_cons_self

omit [DecidableEq ι] in
/-- What `malloc` returns is not in the list. -/
lemma notMem (hl : Holds h phead xs) (hx : h.live x = false) : x ∉ phead :: xs := fun hmem => by
  simp [hl.live x hmem] at hx

omit [DecidableEq ι] in
lemma unique (hl : Holds h phead xs) (hl' : Holds h phead us) : xs = us := by
  refine hl.seg.unique hl'.seg Function.injective_id (fun x hx he => ?_) fun x hx he => ?_
  · exact hl.head_notMem (he ▸ hx)
  · exact hl'.head_notMem (he ▸ hx)

omit [DecidableEq ι] in
lemma next_head (hl : Holds h phead xs) : h.mem.next phead = xs.headD phead := by
  simpa using hl.seg.start_eq

omit [DecidableEq ι] in
lemma next_mem (hl : Holds h phead (us ++ x :: vs)) : h.mem.next x = vs.headD phead := by
  obtain ⟨k, -, -, hseg⟩ := Seg.append_iff.1 hl.seg
  simpa using hseg.start_eq

omit [DecidableEq ι] in
lemma live_last (hl : Holds h phead (us ++ vs)) : h.live (us.getLastD phead) = true := by
  have hsub : phead :: us ⊆ phead :: (us ++ vs) :=
    List.cons_subset_cons phead (List.subset_append_left us vs)
  exact hl.live _ (hsub List.getLastD_mem_cons)

lemma newNode (hl : Holds h phead xs) (x : ι) (data : ℤ) :
    Holds (newNode h x data) phead xs :=
  ⟨hl.nodup, hl.seg, fun y hy => Heap.live_malloc (hl.live y hy) x⟩

/-- A node is linked in behind `us`. -/
lemma insert (hl : Holds h phead (us ++ vs)) (hx : x ∉ phead :: (us ++ vs))
    (hlive : h.live x = true) :
    Holds (setNext (setNext h x (h.mem.next (us.getLastD phead))) (us.getLastD phead) x) phead
      (us ++ x :: vs) := by
  have hperm := Seg.perm_behind phead x us vs
  have hseg := hl.seg.insert_behind hl.nodup hx rfl
  refine ⟨hperm.nodup_iff.2 (List.nodup_cons.2 ⟨hx, hl.nodup⟩), hseg, fun y hy => ?_⟩
  rcases List.mem_cons.1 (hperm.mem_iff.1 hy) with rfl | hy
  · exact hlive
  · exact hl.live y hy

/-- The node behind `us` is taken out, linked to itself and freed. -/
lemma remove (hl : Holds h phead (us ++ x :: vs)) :
    Holds ⟨(setNext (setNext h (us.getLastD phead) (h.mem.next x)) x x).mem,
      Function.update h.live x false⟩ phead (us ++ vs) := by
  have hperm := Seg.perm_behind phead x us vs
  obtain ⟨hx, hnodup⟩ := List.nodup_cons.1 (hperm.nodup_iff.1 hl.nodup)
  refine ⟨hnodup, hl.seg.remove_behind hl.nodup rfl, fun y hy => ?_⟩
  have hne : y ≠ x := fun he => hx (he ▸ hy)
  show Function.update h.live x false y = true
  rw [Function.update_of_ne hne]
  exact hl.live y (hperm.mem_iff.2 (List.mem_cons_of_mem x hy))

end Holds

/-! ### The rest of a list

A loop that walks through the list is at a pointer that leads through the rest of it. -/

/-- The pointer `k` leads through nodes behind the head, and back to it. -/
structure Walk (h : Store ι) (phead k : ι) (xs : List ι) : Prop where
  seg : Seg h.mem.next id k xs phead
  nodes : ∀ x ∈ xs, x ≠ phead ∧ h.live x = true

namespace Walk

variable {k : ι}

omit [DecidableEq ι] in
lemma eq_head (hw : Walk h phead k []) : k = phead := hw.seg

omit [DecidableEq ι] in
lemma cons (hw : Walk h phead k (x :: xs)) :
    k = x ∧ x ≠ phead ∧ h.live x = true ∧ Walk h phead (h.mem.next x) xs := by
  obtain ⟨hne, hlive⟩ := hw.nodes x List.mem_cons_self
  exact ⟨hw.seg.1, hne, hlive, hw.seg.2, fun y hy => hw.nodes y (List.mem_cons_of_mem x hy)⟩

end Walk

omit [DecidableEq ι] in
lemma Holds.walk (hl : Holds h phead xs) : Walk h phead (h.mem.next phead) xs := by
  refine ⟨hl.seg, fun x hx => ⟨?_, hl.live x (List.mem_cons_of_mem phead hx)⟩⟩
  rintro rfl
  exact hl.head_notMem hx

/-! ### The functions -/

lemma slistAdd_ends (hl : Holds h phead xs) (hx : h.live x = false) (data : ℤ) :
    ∃ h', (slistAdd h phead (some x) data).Ends (.ok (h', -1)) ∧ Holds h' phead (x :: xs) ∧
      h'.mem.data = Function.update h.mem.data x data := by
  have hl' : Holds (newNode h x data) phead ([] ++ xs) := hl.newNode x data
  have hlive := h.live_malloc_self x
  refine ⟨_, ?_, hl'.insert (hl.notMem hx) hlive, rfl⟩
  refine newNode_bind (readNext_bind hl'.live_head (writeNext_bind hlive ?_))
  exact writeNext_bind hl'.live_head (Comp.ends_pure.2 rfl)

/-- The loop of `slist_add_tail` comes to the last node. -/
lemma tail_loop (hw : Walk h phead (h.mem.next x) xs) (hlive : h.live x = true) :
    (Comp.loop (tailBody h phead) x).Ends (.ok (xs.getLastD x)) := by
  induction xs generalizing x with
  | nil =>
      refine Comp.Ends.loop_inr (readNext_bind hlive ?_)
      rw [if_pos hw.eq_head]
      exact Comp.ends_pure.2 rfl
  | cons y xs ih =>
      obtain ⟨hnext, hne, hlivey, hw⟩ := hw.cons
      rw [List.getLastD_cons]
      refine Comp.Ends.loop_inl (readNext_bind hlive ?_) (ih hw hlivey)
      rw [hnext, if_neg hne]
      exact Comp.ends_pure.2 rfl

lemma slistAddTail_ends (hl : Holds h phead xs) (hx : h.live x = false) (data : ℤ) :
    ∃ h', (slistAddTail h phead (some x) data).Ends (.ok (h', -1)) ∧
      Holds h' phead (xs ++ [x]) ∧ h'.mem.data = Function.update h.mem.data x data := by
  have hl' : Holds (newNode h x data) phead (xs ++ []) := by simpa using hl.newNode x data
  have hlive := h.live_malloc_self x
  have htail : (Comp.loop (tailBody (newNode h x data) phead)
      ((newNode h x data).mem.next phead)).Ends (.ok (xs.getLastD phead)) := by
    have hw := (hl.newNode x data).walk
    cases xs with
    | nil =>
        -- the head is the last node of an empty list
        rw [hw.eq_head]
        exact tail_loop hw hl'.live_head
    | cons y ys =>
        obtain ⟨hnext, -, hlivey, hw⟩ := hw.cons
        rw [hnext, List.getLastD_cons]
        exact tail_loop hw hlivey
  refine ⟨_, ?_, hl'.insert (by simpa using hl.notMem hx) hlive, rfl⟩
  refine newNode_bind (readNext_bind hl'.live_head (htail.bind ?_))
  refine readNext_bind hl'.live_last (writeNext_bind hlive ?_)
  exact writeNext_bind hl'.live_last (Comp.ends_pure.2 rfl)

/-- The loop of `slist_del` behind nodes without the number, with the last of them in `Prev`. -/
lemma del_loop (hl : Holds h phead (us ++ vs)) (data : ℤ) :
    (data ∉ vs.map h.mem.data ∧
      (Comp.loop (delBody h phead data) (vs.headD phead, us.getLastD phead)).Ends (.ok (h, -1))) ∨
    ∃ h' ys x zs, vs = ys ++ x :: zs ∧ h.mem.data x = data ∧ data ∉ ys.map h.mem.data ∧
      (Comp.loop (delBody h phead data) (vs.headD phead, us.getLastD phead)).Ends (.ok (h', 0)) ∧
      Holds h' phead (us ++ (ys ++ zs)) ∧ h'.mem.data = h.mem.data := by
  induction vs generalizing us with
  | nil =>
      refine Or.inl ⟨by simp, Comp.Ends.loop_inr ?_⟩
      rw [delBody, List.headD_nil, if_pos rfl]
      exact Comp.ends_pure.2 rfl
  | cons x vs ih =>
      have hne : x ≠ phead := fun he => hl.head_notMem (by simp [he])
      have hlive : h.live x = true := hl.live x (by simp)
      have hl' : Holds h phead ((us ++ [x]) ++ vs) := by simpa using hl
      have hnext := hl.next_mem
      by_cases hd : h.mem.data x = data
      · refine Or.inr ⟨_, [], x, vs, rfl, hd, by simp, Comp.Ends.loop_inr ?_, hl.remove, rfl⟩
        rw [delBody, List.headD_cons, if_neg hne]
        refine readNext_bind hlive (readData_bind hlive ?_)
        rw [if_pos hd]
        refine writeNext_bind hl.live_last (writeNext_bind hlive ?_)
        exact Heap.free_bind hlive (Comp.ends_pure.2 rfl)
      · have hstep : (delBody h phead data (x, us.getLastD phead)).Ends
            (.ok (.inl (vs.headD phead, x))) := by
          rw [delBody, if_neg hne]
          refine readNext_bind hlive (readData_bind hlive ?_)
          rw [if_neg hd, hnext]
          exact Comp.ends_pure.2 rfl
        have hlast : (us ++ [x]).getLastD phead = x := by simp
        rcases ih hl' with ⟨hnot, hends⟩ | ⟨h', ys, y, zs, rfl, hy, hys, hends, hl₁, hdata⟩
        · rw [hlast] at hends
          exact Or.inl ⟨by simpa [Ne.symm hd] using hnot, Comp.Ends.loop_inl hstep hends⟩
        · rw [hlast] at hends
          refine Or.inr ⟨h', x :: ys, y, zs, rfl, hy, by simpa [Ne.symm hd] using hys,
            Comp.Ends.loop_inl hstep hends, by simpa using hl₁, hdata⟩

/-- `slist_del` takes out the first node with the number, or reports that there is none. -/
lemma slistDel_ends (hl : Holds h phead xs) (data : ℤ) : ∃ h' ys,
    (slistDel h phead data).Ends (.ok (h', if data ∈ xs.map h.mem.data then 0 else -1)) ∧
      Holds h' phead ys ∧ ys.map h'.mem.data = (xs.map h.mem.data).erase data ∧
      (data ∉ xs.map h.mem.data → h' = h) := by
  have hl' : Holds h phead ([] ++ xs) := hl
  have hnext := hl.next_head
  rcases del_loop hl' data with ⟨hnot, hends⟩ |
    ⟨h', ys, x, zs, rfl, hx, hys, hends, hl₁, hdata⟩
  · refine ⟨h, xs, ?_, hl, (List.erase_of_not_mem hnot).symm, fun _ => rfl⟩
    rw [if_neg hnot]
    refine readNext_bind hl.live_head ?_
    rwa [hnext]
  · have hmem : data ∈ (ys ++ x :: zs).map h.mem.data := by simp [hx]
    refine ⟨h', ys ++ zs, ?_, hl₁, ?_, fun hnot => absurd hmem hnot⟩
    · rw [if_pos hmem]
      refine readNext_bind hl.live_head ?_
      rwa [hnext]
    · rw [hdata, List.map_append, List.map_append, List.erase_append_right _ hys, List.map_cons,
        hx, List.erase_cons_head]

/-- The loop of `slist_invert`: what is turned already leads from `Prev` to the head, and the rest
from `cur`. -/
lemma invert_loop {prev cur : ι} (hturned : Seg h.mem.next id prev ds phead)
    (hrest : Seg h.mem.next id cur vs phead) (hnodup : (phead :: (ds ++ vs)).Nodup)
    (hlive : ∀ x ∈ vs, h.live x = true) : ∃ next prev',
      (Comp.loop (invertBody phead) (h, prev, cur)).Ends
        (.ok (h.setMem { h.mem with next := next }, prev')) ∧
      Seg next id prev' (vs.reverse ++ ds) phead := by
  induction vs generalizing h prev cur ds with
  | nil =>
      obtain rfl : cur = phead := hrest
      refine ⟨h.mem.next, prev, Comp.Ends.loop_inr ?_, hturned⟩
      rw [invertBody, if_pos rfl]
      exact Comp.ends_pure.2 rfl
  | cons x vs ih =>
      obtain rfl : cur = x := hrest.1
      have hnot : cur ∉ phead :: (ds ++ vs) :=
        (List.nodup_cons.1 ((Seg.perm_behind phead cur ds vs).nodup_iff.1 hnodup)).1
      simp only [List.mem_cons, List.mem_append, not_or] at hnot
      obtain ⟨hne, hds, hvs⟩ := hnot
      have hlivex : h.live cur = true := hlive cur List.mem_cons_self
      obtain ⟨hrest', hturned'⟩ := hrest.turn hturned ⟨hvs, hds⟩
      have hnodup' : (phead :: ((cur :: ds) ++ vs)).Nodup :=
        ((List.perm_middle.symm.cons phead).nodup_iff).2 hnodup
      obtain ⟨next, prev', hends, hseg⟩ := ih (h := setNext h cur prev) hturned' hrest' hnodup'
        fun y hy => hlive y (List.mem_cons_of_mem cur hy)
      refine ⟨next, prev', Comp.Ends.loop_inl ?_ hends, by simpa using hseg⟩
      rw [invertBody, if_neg hne]
      exact readNext_bind hlivex (writeNext_bind hlivex (Comp.ends_pure.2 rfl))

lemma slistInvert_ends (hl : Holds h phead xs) : ∃ h',
    (slistInvert h phead).Ends (.ok h') ∧ Holds h' phead xs.reverse ∧
      h'.mem.data = h.mem.data := by
  have hstart : Seg h.mem.next id phead [] phead := rfl
  obtain ⟨next, prev, hloop, hseg⟩ := invert_loop hstart hl.seg hl.nodup fun x hx =>
    hl.live x (List.mem_cons_of_mem phead hx)
  rw [List.append_nil] at hseg
  have hhead : (h.setMem { h.mem with next := next }).live phead = true := hl.live_head
  refine ⟨setNext (h.setMem { h.mem with next := next }) phead prev, ?_, ⟨?_, ?_, ?_⟩, rfl⟩
  · exact readNext_bind hl.live_head (hloop.bind (writeNext_ends hhead prev))
  · exact ((List.reverse_perm xs).cons phead).nodup_iff.2 hl.nodup
  · have hseg' := hseg.update (x := phead) (by simpa using hl.head_notMem) prev
    simpa using hseg'
  · intro x hx
    exact hl.live x (by simpa using hx)

/-! ### Walks -/

lemma forEach_loop {k : ι} (hw : Walk h phead k xs) (out : List ℤ) :
    (Comp.loop (forEachBody h phead) (k, out)).Ends (.ok (out ++ xs.map h.mem.data)) := by
  induction xs generalizing k out with
  | nil =>
      refine Comp.Ends.loop_inr ?_
      rw [forEachBody, if_pos hw.eq_head]
      simp
  | cons x xs ih =>
      obtain ⟨rfl, hne, hlive, hw⟩ := hw.cons
      have hrest := ih hw (out ++ [h.mem.data k])
      rw [List.append_assoc, List.singleton_append] at hrest
      refine Comp.Ends.loop_inl ?_ hrest
      rw [forEachBody, if_neg hne]
      exact readData_bind hlive (readNext_bind hlive (Comp.ends_pure.2 rfl))

lemma slistForEach_ends (hl : Holds h phead xs) :
    (slistForEach h phead).Ends (.ok (xs.map h.mem.data)) :=
  readNext_bind hl.live_head (forEach_loop hl.walk [])

lemma forEachInvert_recur {k : ι} (hw : Walk h phead k xs) :
    (Comp.recur (_slistForEachInvert h phead) k).Ends (.ok (xs.map h.mem.data).reverse) := by
  induction xs generalizing k with
  | nil =>
      refine Comp.Ends.recur ?_
      simp [_slistForEachInvert, hw.eq_head]
  | cons x xs ih =>
      obtain ⟨rfl, hne, hlive, hw⟩ := hw.cons
      refine Comp.Ends.recur ?_
      show Comp.Ends (if k = phead then _ else _) _
      rw [if_neg hne]
      exact readNext_bind hlive ((ih hw).bind (readData_bind hlive (by simp)))

lemma slistForEachInvert_ends (hl : Holds h phead xs) :
    (slistForEachInvert h phead).Ends (.ok (xs.map h.mem.data).reverse) :=
  readNext_bind hl.live_head (forEachInvert_recur hl.walk)

/-! ### Runs -/

/-- A call; an insertion comes with the address that its `malloc` returns. -/
inductive Call (ι : Type) where
  | add (newNode : ι) (data : ℤ)
  | addTail (newNode : ι) (data : ℤ)
  | del (data : ℤ)
  | invert
deriving DecidableEq

/-- The calls, with what `slist_del` returns. -/
def call (phead : ι) (c : Call ι) (h : Store ι) : Comp MemFault (Store ι × Option ℤ) :=
  match c with
  | .add newNode data => do
    let r ← slistAdd h phead (some newNode) data
    pure (r.1, none)
  | .addTail newNode data => do
    let r ← slistAddTail h phead (some newNode) data
    pure (r.1, none)
  | .del data => do
    let r ← slistDel h phead data
    pure (r.1, some r.2)
  | .invert => do
    let h ← slistInvert h phead
    pure (h, none)

/-- What a call does to the sequence of numbers. -/
def spec (c : Call ι) (a : List ℤ) : List ℤ × Option ℤ :=
  match c with
  | .add _ data => (data :: a, none)
  | .addTail _ data => (a ++ [data], none)
  | .del data => (a.erase data, some (if data ∈ a then 0 else -1))
  | .invert => (a.reverse, none)

/-- What a call needs: `malloc` returns an address that is not in use. -/
def Needs (c : Call ι) (h : Store ι) : Prop :=
  match c with
  | .add newNode _ | .addTail newNode _ => h.live newNode = false
  | .del _ | .invert => True

/-- The list holds the numbers. -/
def Rep (phead : ι) (h : Store ι) (a : List ℤ) : Prop :=
  ∃ xs, Holds h phead xs ∧ xs.map h.mem.data = a

omit [DecidableEq ι] in
lemma Rep.unique {a b : List ℤ} (ha : Rep phead h a) (hb : Rep phead h b) : a = b := by
  obtain ⟨xs, hl, rfl⟩ := ha
  obtain ⟨us, hl', rfl⟩ := hb
  rw [hl.unique hl']

lemma slistAdd_rep {a : List ℤ} (hR : Rep phead h a) (hx : h.live x = false) (data : ℤ) :
    ∃ h', (slistAdd h phead (some x) data).Ends (.ok (h', -1)) ∧ Rep phead h' (data :: a) := by
  obtain ⟨xs, hl, rfl⟩ := hR
  obtain ⟨h', hends, hl', hdata⟩ := slistAdd_ends hl hx data
  have hnot : x ∉ xs := fun hm => hl.notMem hx (List.mem_cons_of_mem phead hm)
  have hnodup := (List.nodup_cons.1 hl.nodup).2
  refine ⟨h', hends, x :: xs, hl', ?_⟩
  rw [hdata, List.map_cons, Function.update_self, hnodup.map_update, if_neg hnot]

lemma slistAddTail_rep {a : List ℤ} (hR : Rep phead h a) (hx : h.live x = false) (data : ℤ) :
    ∃ h', (slistAddTail h phead (some x) data).Ends (.ok (h', -1)) ∧
      Rep phead h' (a ++ [data]) := by
  obtain ⟨xs, hl, rfl⟩ := hR
  obtain ⟨h', hends, hl', hdata⟩ := slistAddTail_ends hl hx data
  have hnot : x ∉ xs := fun hm => hl.notMem hx (List.mem_cons_of_mem phead hm)
  have hnodup := (List.nodup_cons.1 hl.nodup).2
  refine ⟨h', hends, xs ++ [x], hl', ?_⟩
  rw [hdata, List.map_append, List.map_singleton, Function.update_self, hnodup.map_update,
    if_neg hnot]

lemma call_refines (phead : ι) : Calls.Refines (call phead) Needs spec (Rep phead) := by
  rintro (⟨x, data⟩ | ⟨x, data⟩ | data | _) h a hR hneeds
  · obtain ⟨h', hends, hR'⟩ := slistAdd_rep hR hneeds data
    exact ⟨h', hends.bind (Comp.ends_pure.2 rfl), hR'⟩
  · obtain ⟨h', hends, hR'⟩ := slistAddTail_rep hR hneeds data
    exact ⟨h', hends.bind (Comp.ends_pure.2 rfl), hR'⟩
  · obtain ⟨xs, hl, rfl⟩ := hR
    obtain ⟨h', ys, hends, hl', hmap, -⟩ := slistDel_ends hl data
    exact ⟨h', hends.bind (Comp.ends_pure.2 rfl), ys, hl', hmap⟩
  · obtain ⟨xs, hl, rfl⟩ := hR
    obtain ⟨h', hends, hl', hdata⟩ := slistInvert_ends hl
    refine ⟨h', hends.bind (Comp.ends_pure.2 rfl), xs.reverse, hl', ?_⟩
    rw [hdata, List.map_reverse]
    rfl

/-- A new list is empty. -/
lemma slistInit_ends (h : Store ι) (phead : ι) : ∃ h',
    (slistInit h (some phead)).Ends (.ok (h', some phead)) ∧ Holds h' phead [] := by
  have hlive := h.live_malloc_self phead
  refine ⟨setNext (newNode h phead 0) phead phead, ?_, ⟨List.nodup_singleton phead, ?_, ?_⟩⟩
  · exact newNode_bind (writeNext_bind hlive (Comp.ends_pure.2 rfl))
  · simp
  · intro x hx
    obtain rfl : x = phead := by simpa using hx
    exact hlive

/-- Every sequence of calls on a new list does to it what it does to the sequence of numbers: from
the head `next` leads through nodes with these numbers back to the head, `slist_for_each` comes to
them in this order and `slist_for_each_invert` in the reverse order, and deleting a number that is
not there changes nothing. -/
theorem ring_refines {h₁ : Store ι} (hinit : (slistInit h (some phead)).Ends (.ok (h₁, some phead)))
    (cs : List (Call ι)) (hp : Calls.Provided (call phead) Needs cs h₁) :
    ∃ h₂ xs, (Calls.calls (call phead) cs h₁).Ends (.ok (h₂, (Calls.expected spec cs []).2)) ∧
      (phead :: xs).Nodup ∧ Seg h₂.mem.next id (h₂.mem.next phead) xs phead ∧
      xs.map h₂.mem.data = (Calls.expected spec cs []).1 ∧
      (slistForEach h₂ phead).Ends (.ok (Calls.expected spec cs []).1) ∧
      (slistForEachInvert h₂ phead).Ends (.ok (Calls.expected spec cs []).1.reverse) ∧
      ∀ data ∉ (Calls.expected spec cs []).1, (slistDel h₂ phead data).Ends (.ok (h₂, -1)) := by
  obtain ⟨h', hinit', hl⟩ := slistInit_ends h phead
  obtain ⟨rfl, -⟩ := Prod.mk.inj (Except.ok.inj (hinit.unique hinit'))
  have hrep : Rep phead h₁ [] := ⟨[], hl, rfl⟩
  obtain ⟨h₂, hcalls, xs, hl₂, hmap⟩ := (call_refines phead).calls cs hrep hp
  refine ⟨h₂, xs, hcalls, hl₂.nodup, hl₂.seg, hmap, ?_, ?_, fun data hd => ?_⟩
  · rw [← hmap]
    exact slistForEach_ends hl₂
  · rw [← hmap]
    exact slistForEachInvert_ends hl₂
  · rw [← hmap] at hd
    obtain ⟨h₃, ys, hends, -, -, hsame⟩ := slistDel_ends hl₂ data
    rwa [if_neg hd, hsame hd] at hends

/-- A memory in which nothing is allocated. -/
def freshStore : Store ℕ where
  mem := ⟨id, fun _ => 0⟩
  live _ := false

/-- The list of 1, 2 and 3, turned round, without the 2; there is no 5. -/
theorem ring_refines_turned : ∃ h₁ h₂ : Store ℕ,
    (slistInit freshStore (some 0)).Ends (.ok (h₁, some 0)) ∧
      (Calls.calls (call 0) [.addTail 1 2, .add 2 1, .addTail 3 3, .invert, .del 2, .del 5] h₁).Ends
        (.ok (h₂, [none, none, none, none, some 0, some (-1)])) ∧
      (slistForEach h₂ 0).Ends (.ok [3, 1]) := by
  have hinit : (slistInit freshStore (some 0)).Ends (.ok (_, some 0)) := ⟨0, rfl⟩
  obtain ⟨h₂, xs, hcalls, -, -, -, hprinted, -⟩ := ring_refines hinit
    [.addTail 1 2, .add 2 1, .addTail 3 3, .invert, .del 2, .del 5]
    (.cons rfl ⟨9, rfl⟩ (.cons rfl ⟨9, rfl⟩ (.cons rfl ⟨9, rfl⟩ (.cons trivial ⟨9, rfl⟩
      (.cons trivial ⟨9, rfl⟩ (.cons trivial ⟨9, rfl⟩ trivial))))))
  exact ⟨_, h₂, hinit, hcalls, hprinted⟩

end HeadLoop

end DemoClass
