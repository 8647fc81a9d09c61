import DemoClass.Lib.Comp

/-!
# Memory that is allocated and freed

A heap is a memory, of any form, with the addresses that are allocated.  `load` and `store` reach
the memory through an address, and fault when nothing is allocated there, as `free` does; so a
function that ends without the fault `dangling` has used no cell after it was freed, and has freed
none twice.  `malloc` is given the address it returns.
-/

namespace DemoClass

/-- What can go wrong with an address. -/
inductive MemFault where
  | dangling
  | outOfBounds
deriving DecidableEq, Repr

/-- A memory, and the addresses that are allocated. -/
structure Heap (ι μ : Type) where
  mem : μ
  live : ι → Bool

namespace Heap

variable {ι μ α : Type}

def setMem (h : Heap ι μ) (m : μ) : Heap ι μ := { h with mem := m }

/-- Read what is at `x`. -/
def load (h : Heap ι μ) (x : ι) (f : μ → α) : Comp MemFault α :=
  if h.live x then pure (f h.mem) else Comp.fault .dangling

/-- Write to what is at `x`, where it is long enough. -/
def storeIn (h : Heap ι μ) (x : ι) (f : μ → Option μ) : Comp MemFault (Heap ι μ) :=
  if h.live x then
    match f h.mem with
    | some m => pure (h.setMem m)
    | none => Comp.fault .outOfBounds
  else Comp.fault .dangling

/-- Write to what is at `x`. -/
def store (h : Heap ι μ) (x : ι) (f : μ → μ) : Comp MemFault (Heap ι μ) :=
  if h.live x then pure (h.setMem (f h.mem)) else Comp.fault .dangling

variable [DecidableEq ι]

/-- `malloc`, which returns `x`. -/
def malloc (h : Heap ι μ) (x : ι) : Heap ι μ := { h with live := Function.update h.live x true }

/-- `free` -/
def free (h : Heap ι μ) (x : ι) : Comp MemFault (Heap ι μ) :=
  if h.live x then pure { h with live := Function.update h.live x false }
  else Comp.fault .dangling

variable {h : Heap ι μ} {x : ι}

omit [DecidableEq ι] in
@[simp] lemma mem_setMem (h : Heap ι μ) (m : μ) : (h.setMem m).mem = m := rfl

omit [DecidableEq ι] in
@[simp] lemma live_setMem (h : Heap ι μ) (m : μ) : (h.setMem m).live = h.live := rfl

@[simp] lemma mem_malloc (h : Heap ι μ) (x : ι) : (h.malloc x).mem = h.mem := rfl

@[simp] lemma live_malloc_self (h : Heap ι μ) (x : ι) : (h.malloc x).live x = true := by
  simp [malloc]

lemma live_malloc {y : ι} (hy : h.live y = true) (x : ι) : (h.malloc x).live y = true := by
  by_cases he : y = x
  · rw [he, live_malloc_self]
  · simp [malloc, he, hy]

omit [DecidableEq ι] in
lemma load_ends (hx : h.live x = true) (f : μ → α) : (h.load x f).Ends (.ok (f h.mem)) := by
  rw [load, if_pos hx]
  exact Comp.ends_pure.2 rfl

omit [DecidableEq ι] in
lemma store_ends (hx : h.live x = true) (f : μ → μ) :
    (h.store x f).Ends (.ok (h.setMem (f h.mem))) := by
  rw [store, if_pos hx]
  exact Comp.ends_pure.2 rfl

omit [DecidableEq ι] in
lemma storeIn_ends {f : μ → Option μ} {m : μ} (hx : h.live x = true) (hm : f h.mem = some m) :
    (h.storeIn x f).Ends (.ok (h.setMem m)) := by
  rw [storeIn, if_pos hx, hm]
  exact Comp.ends_pure.2 rfl

omit [DecidableEq ι] in
lemma storeIn_outOfBounds {f : μ → Option μ} (hx : h.live x = true) (hm : f h.mem = none) :
    (h.storeIn x f).Ends (.error .outOfBounds) := by
  rw [storeIn, if_pos hx, hm]
  exact Comp.ends_fault.2 rfl

omit [DecidableEq ι] in
/-- A write after the cell was freed. -/
lemma storeIn_dangling (hx : h.live x = false) (f : μ → Option μ) :
    (h.storeIn x f).Ends (.error .dangling) := by
  rw [storeIn, if_neg (by simp [hx])]
  exact Comp.ends_fault.2 rfl

omit [DecidableEq ι] in
lemma load_bind {β : Type} {f : μ → α} {k : α → Comp MemFault β} {r : Except MemFault β}
    (hx : h.live x = true) (hk : (k (f h.mem)).Ends r) : (h.load x f >>= k).Ends r :=
  (load_ends hx f).bind hk

omit [DecidableEq ι] in
lemma store_bind {β : Type} {f : μ → μ} {k : Heap ι μ → Comp MemFault β} {r : Except MemFault β}
    (hx : h.live x = true) (hk : (k (h.setMem (f h.mem))).Ends r) : (h.store x f >>= k).Ends r :=
  (store_ends hx f).bind hk

lemma free_ends (hx : h.live x = true) :
    (h.free x).Ends (.ok ⟨h.mem, Function.update h.live x false⟩) := by
  rw [free, if_pos hx]
  exact Comp.ends_pure.2 rfl

lemma free_bind {β : Type} {k : Heap ι μ → Comp MemFault β} {r : Except MemFault β}
    (hx : h.live x = true) (hk : (k ⟨h.mem, Function.update h.live x false⟩).Ends r) :
    (h.free x >>= k).Ends r :=
  (free_ends hx).bind hk

end Heap

end DemoClass
