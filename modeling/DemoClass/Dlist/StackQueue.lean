import DemoClass.Dlist.Dlist
import DemoClass.KernelList.ForEach
import DemoClass.Lib.Calls

/-!
# Stacks and queues (`stack.c`, `queue.c`)

A stack and a queue are the list of `dlist.c` with a new element in front or at the end.  The two
files differ in nothing else: both take the first element off.  `refines`: every sequence of calls
with one element size gives what a sequence of elements gives, which grows at its front or at its
end.
-/

namespace DemoClass

namespace Dlist

variable {ι β : Type} [DecidableEq ι]

/-- `struct stack_info` and `struct queue_info` -/
structure Info (ι : Type) where
  dlist : DlistInfo ι

/-- The functions of `stack.c`, or those of `queue.c`. -/
inductive Kind where
  | stack
  | queue
deriving DecidableEq, Repr

/-! ### The functions of both -/

def isEmpty (h : Store ι β) (info : Info ι) : Comp MemFault ℤ := dlistIsEmpty h info.dlist

/-- A push by the given function, which reports nothing; the return value is always 0. -/
def push (add : Store ι β → DlistInfo ι → Option ι → List β → ℕ → Comp MemFault (Store ι β))
    (h : Store ι β) (info : Info ι) (node : Option ι) (data : List β) (size : ℕ) :
    Comp MemFault (Store ι β × ℤ) := do
  let h ← add h info.dlist node data size
  pure (h, 0)

/-- The first element is copied to `dest`. -/
def top (h : Store ι β) (info : Info ι) (dest : List β) (size : ℕ) :
    Comp MemFault (List β × ℤ) := do
  let empty ← isEmpty h info
  if empty ≠ 0 then pure (dest, -1)
  else
    let next ← h.readNext info.dlist.head
    let priv ← h.load next fun m => m.data next
    match memcpy dest priv size with
    | some dest => pure (dest, 0)
    | none => Comp.fault .outOfBounds

/-- The first element is copied to `dest` and taken off. -/
def pop (h : Store ι β) (info : Info ι) (dest : List β) (size : ℕ) :
    Comp MemFault (Store ι β × List β × ℤ) := do
  let r ← top h info dest size
  if r.2 < 0 then pure (h, r.1, -1)
  else
    let next ← h.readNext info.dlist.head
    let h ← dlistDel h next
    pure (h, r.1, 0)

/-- The `dlist_info` is allocated (`dlist`), and then the head of the list; whether `dlist_init`
succeeds is not asked. -/
def init (h : Store ι β) (dlist : Bool) (head : Option ι) :
    Comp MemFault (Store ι β × Option (Info ι) × ℤ) :=
  if dlist then do
    let r ← dlistInit h head
    pure (r.1, r.2.1.map Info.mk, 0)
  else pure (h, none, -1)

/-! ### `stack.c` -/

/-- `stack_is_empty` -/
def stackIsEmpty (h : Store ι β) (info : Info ι) : Comp MemFault ℤ := isEmpty h info

/-- `stack_push` -/
def stackPush (h : Store ι β) (info : Info ι) (node : Option ι) (data : List β) (size : ℕ) :
    Comp MemFault (Store ι β × ℤ) := push dlistAdd h info node data size

/-- `stack_top` -/
def stackTop (h : Store ι β) (info : Info ι) (dest : List β) (size : ℕ) :
    Comp MemFault (List β × ℤ) := top h info dest size

/-- `stack_pop` -/
def stackPop (h : Store ι β) (info : Info ι) (dest : List β) (size : ℕ) :
    Comp MemFault (Store ι β × List β × ℤ) := pop h info dest size

/-- `stack_init` -/
def stackInit (h : Store ι β) (dlist : Bool) (head : Option ι) :
    Comp MemFault (Store ι β × Option (Info ι) × ℤ) := init h dlist head

/-! ### `queue.c` -/

/-- `queue_is_empty` -/
def queueIsEmpty (h : Store ι β) (info : Info ι) : Comp MemFault ℤ := isEmpty h info

/-- `queue_push` -/
def queuePush (h : Store ι β) (info : Info ι) (node : Option ι) (data : List β) (size : ℕ) :
    Comp MemFault (Store ι β × ℤ) := push dlistAddTail h info node data size

/-- `queue_top` -/
def queueTop (h : Store ι β) (info : Info ι) (dest : List β) (size : ℕ) :
    Comp MemFault (List β × ℤ) := top h info dest size

/-- `queue_pop` -/
def queuePop (h : Store ι β) (info : Info ι) (dest : List β) (size : ℕ) :
    Comp MemFault (Store ι β × List β × ℤ) := pop h info dest size

/-- `queue_init` -/
def queueInit (h : Store ι β) (dlist : Bool) (head : Option ι) :
    Comp MemFault (Store ι β × Option (Info ι) × ℤ) := init h dlist head

/-! ### Calls -/

/-- A call through the function pointers of the `info`; a push comes with the address that its
`malloc` returns. -/
inductive Call (ι β : Type) where
  | push (node : ι) (data : List β)
  | top (dest : List β)
  | pop (dest : List β)
  | isEmpty
deriving DecidableEq

/-- What a call returns, and what is in `dest` then. -/
inductive Result (β : Type) where
  | code (ret : ℤ)
  | copied (dest : List β) (ret : ℤ)
deriving DecidableEq

namespace Kind

def init (k : Kind) (h : Store ι β) (dlist : Bool) (head : Option ι) :
    Comp MemFault (Store ι β × Option (Info ι) × ℤ) :=
  match k with
  | .stack => stackInit h dlist head
  | .queue => queueInit h dlist head

def push (k : Kind) (h : Store ι β) (info : Info ι) (node : Option ι) (data : List β)
    (size : ℕ) : Comp MemFault (Store ι β × ℤ) :=
  match k with
  | .stack => stackPush h info node data size
  | .queue => queuePush h info node data size

def top (k : Kind) (h : Store ι β) (info : Info ι) (dest : List β) (size : ℕ) :
    Comp MemFault (List β × ℤ) :=
  match k with
  | .stack => stackTop h info dest size
  | .queue => queueTop h info dest size

def pop (k : Kind) (h : Store ι β) (info : Info ι) (dest : List β) (size : ℕ) :
    Comp MemFault (Store ι β × List β × ℤ) :=
  match k with
  | .stack => stackPop h info dest size
  | .queue => queuePop h info dest size

def isEmpty (k : Kind) (h : Store ι β) (info : Info ι) : Comp MemFault ℤ :=
  match k with
  | .stack => stackIsEmpty h info
  | .queue => queueIsEmpty h info

/-- The calls, with the element size `size`. -/
def call (k : Kind) (info : Info ι) (size : ℕ) (c : Call ι β) (h : Store ι β) :
    Comp MemFault (Store ι β × Result β) :=
  match c with
  | .push node data => do
    let r ← k.push h info (some node) data size
    pure (r.1, .code r.2)
  | .top dest => do
    let r ← k.top h info dest size
    pure (h, .copied r.1 r.2)
  | .pop dest => do
    let r ← k.pop h info dest size
    pure (r.1, .copied r.2.1 r.2.2)
  | .isEmpty => do
    let r ← k.isEmpty h info
    pure (h, .code r)

/-- Where a new element goes: a stack is last in, first out, and a queue is first in, first
out. -/
def insert {α : Type} (k : Kind) (x : α) (xs : List α) : List α :=
  match k with
  | .stack => x :: xs
  | .queue => xs ++ [x]

/-- The sequence of elements, from the next one to be taken off, behind a call, and what the call
gives. -/
def spec (k : Kind) (size : ℕ) (c : Call ι β) (a : List (List β)) : List (List β) × Result β :=
  match c, a with
  | .push _ data, a => (k.insert (data.take size) a, .code 0)
  | .top dest, [] => ([], .copied dest (-1))
  | .top dest, x :: a => (x :: a, .copied (x ++ dest.drop size) 0)
  | .pop dest, [] => ([], .copied dest (-1))
  | .pop dest, x :: a => (a, .copied (x ++ dest.drop size) 0)
  | .isEmpty, [] => ([], .code 1)
  | .isEmpty, x :: a => (x :: a, .code 0)

end Kind

/-- What a call needs: an address that is not in use, and arrays that hold an element. -/
def Needs (size : ℕ) (c : Call ι β) (h : Store ι β) : Prop :=
  match c with
  | .push node data => h.live node = false ∧ size ≤ data.length
  | .top dest | .pop dest => size ≤ dest.length
  | .isEmpty => True

/-- The list holds the elements. -/
def Rep (info : Info ι) (size : ℕ) (h : Store ι β) (a : List (List β)) : Prop :=
  (∃ xs, h.Holds info.dlist.head xs ∧ xs.map h.mem.data = a) ∧ ∀ x ∈ a, x.length = size

variable {k : Kind} {h : Store ι β} {info : Info ι} {x head : ι} {xs : List ι} {a : List (List β)}
  {data dest : List β} {size : ℕ}

/-! ### One call -/

namespace Kind

lemma insert_perm {α : Type} (k : Kind) (x : α) (xs : List α) : (k.insert x xs).Perm (x :: xs) := by
  cases k with
  | stack => exact List.Perm.refl _
  | queue => exact List.perm_append_singleton x xs

/-- The new cell holds the new element, and the others keep theirs. -/
lemma map_insert {α : Type} (k : Kind) (f : ι → α) (hnodup : (x :: xs).Nodup) (v : α) :
    (k.insert x xs).map (Function.update f x v) = k.insert v (xs.map f) := by
  obtain ⟨hx, hxs⟩ := List.nodup_cons.1 hnodup
  have hsame : xs.map (Function.update f x v) = xs.map f := by
    rw [hxs.map_update, if_neg hx]
  cases k <;> simp [insert, hsame]

lemma push_ends (k : Kind) (hl : h.Holds info.dlist.head xs) (hx : h.live x = false)
    (hd : size ≤ data.length) : ∃ h', (k.push h info (some x) data size).Ends (.ok (h', 0)) ∧
      h'.Holds info.dlist.head (k.insert x xs) ∧
      (k.insert x xs).map h'.mem.data = k.insert (data.take size) (xs.map h.mem.data) := by
  have hnot := hl.notMem hx
  have hnodup : (x :: xs).Nodup := List.nodup_cons.2
    ⟨fun hm => hnot (List.mem_cons_of_mem _ hm), (List.nodup_cons.1 hl.ring.nodup).2⟩
  have hmap := k.map_insert h.mem.data hnodup (data.take size)
  cases k with
  | stack =>
      exact ⟨_, (dlistAdd_ends hl hx hd).bind (Comp.ends_pure.2 rfl),
        holds_inserted hl (insert_perm .stack x xs) (hl.ring.splice_head hnot) _, hmap⟩
  | queue =>
      exact ⟨_, (dlistAddTail_ends hl hx hd).bind (Comp.ends_pure.2 rfl),
        holds_inserted hl (insert_perm .queue x xs) (hl.ring.splice_last hnot) _, hmap⟩

lemma top_eq (k : Kind) (h : Store ι β) (info : Info ι) (dest : List β) (size : ℕ) :
    k.top h info dest size = Dlist.top h info dest size := by
  cases k <;> rfl

lemma pop_eq (k : Kind) (h : Store ι β) (info : Info ι) (dest : List β) (size : ℕ) :
    k.pop h info dest size = Dlist.pop h info dest size := by
  cases k <;> rfl

lemma isEmpty_eq (k : Kind) (h : Store ι β) (info : Info ι) :
    k.isEmpty h info = dlistIsEmpty h info.dlist := by
  cases k <;> rfl

end Kind

lemma top_nil (hl : h.Holds info.dlist.head []) (dest : List β) (size : ℕ) :
    (top h info dest size).Ends (.ok (dest, -1)) := by
  refine (dlistIsEmpty_ends hl).bind ?_
  simp

lemma top_cons (hl : h.Holds info.dlist.head (x :: xs)) (hx : (h.mem.data x).length = size)
    (hd : size ≤ dest.length) :
    (top h info dest size).Ends (.ok (h.mem.data x ++ dest.drop size, 0)) := by
  have hcopy : memcpy dest (h.mem.data x) size = some (h.mem.data x ++ dest.drop size) := by
    rw [memcpy, if_pos ⟨hd, hx.ge⟩, ← hx, List.take_length]
  refine (dlistIsEmpty_ends hl).bind ?_
  rw [if_neg (List.cons_ne_nil x xs), if_neg (by simp)]
  refine Heap.readNext_bind hl.live_head ?_
  rw [hl.ring.next_head, List.headD_cons]
  refine Heap.load_bind (hl.live x (by simp)) ?_
  rw [hcopy]
  exact Comp.ends_pure.2 rfl

lemma pop_nil (hl : h.Holds info.dlist.head []) (dest : List β) (size : ℕ) :
    (pop h info dest size).Ends (.ok (h, dest, -1)) :=
  (top_nil hl dest size).bind (Comp.ends_pure.2 rfl)

lemma pop_cons (hl : h.Holds info.dlist.head (x :: xs)) (hx : (h.mem.data x).length = size)
    (hd : size ≤ dest.length) : ∃ h',
      (pop h info dest size).Ends (.ok (h', h.mem.data x ++ dest.drop size, 0)) ∧
        h'.Holds info.dlist.head xs ∧ h'.mem.data = h.mem.data := by
  have hl' : h.Holds info.dlist.head ([] ++ x :: xs) := hl
  obtain ⟨l, hdel, hring⟩ := dlistDel_ends hl'
  refine ⟨⟨⟨l, h.mem.data⟩, Function.update h.live x false⟩, ?_, holds_deleted hl' hring, rfl⟩
  refine (top_cons hl hx hd).bind ?_
  rw [if_neg (by simp)]
  refine Heap.readNext_bind hl.live_head ?_
  rw [hl.ring.next_head, List.headD_cons]
  exact hdel.bind (Comp.ends_pure.2 rfl)

/-- One call does what it does to the sequence of elements. -/
lemma call_refines (k : Kind) (info : Info ι) (size : ℕ) :
    Calls.Refines (k.call info size) (Needs size) (k.spec size) (Rep (β := β) info size) := by
  rintro (⟨node, data⟩ | dest | dest | _) h a ⟨⟨xs, hl, rfl⟩, hsize⟩ hneeds
  · obtain ⟨h', hends, hl', hmap⟩ := k.push_ends hl hneeds.1 hneeds.2
    refine ⟨h', hends.bind (Comp.ends_pure.2 rfl), ⟨_, hl', hmap⟩, fun y hy => ?_⟩
    have hy' : y = data.take size ∨ y ∈ xs.map h.mem.data :=
      List.mem_cons.1 ((k.insert_perm _ _).mem_iff.1 hy)
    rcases hy' with rfl | hy
    · exact List.length_take_of_le hneeds.2
    · exact hsize y hy
  · have hends : ∀ r, (k.top h info dest size).Ends (.ok r) →
        (k.call info size (.top dest) h).Ends (.ok (h, .copied r.1 r.2)) := fun r hr =>
      hr.bind (Comp.ends_pure.2 rfl)
    rw [k.top_eq] at hends
    cases xs with
    | nil => exact ⟨h, hends _ (top_nil hl dest size), ⟨[], hl, rfl⟩, by simp [Kind.spec]⟩
    | cons x xs =>
        have hx := hsize _ List.mem_cons_self
        exact ⟨h, hends _ (top_cons hl hx hneeds), ⟨x :: xs, hl, rfl⟩, hsize⟩
  · have hends : ∀ r, (k.pop h info dest size).Ends (.ok r) →
        (k.call info size (.pop dest) h).Ends (.ok (r.1, .copied r.2.1 r.2.2)) := fun r hr =>
      hr.bind (Comp.ends_pure.2 rfl)
    rw [k.pop_eq] at hends
    cases xs with
    | nil => exact ⟨h, hends _ (pop_nil hl dest size), ⟨[], hl, rfl⟩, by simp [Kind.spec]⟩
    | cons x xs =>
        obtain ⟨h', hpop, hl', hdata⟩ := pop_cons hl (hsize _ List.mem_cons_self) hneeds
        refine ⟨h', hends _ hpop, ⟨xs, hl', by rw [hdata]; rfl⟩, fun y hy => ?_⟩
        exact hsize y (List.mem_cons_of_mem _ hy)
  · have hends : (k.call info size .isEmpty h).Ends
        (.ok (h, .code (if xs = [] then 1 else 0))) := by
      refine Comp.Ends.bind ?_ (Comp.ends_pure.2 rfl)
      rw [k.isEmpty_eq]
      exact dlistIsEmpty_ends hl
    cases xs with
    | nil => exact ⟨h, hends, ⟨[], hl, rfl⟩, by simp [Kind.spec]⟩
    | cons x xs => exact ⟨h, hends, ⟨x :: xs, hl, rfl⟩, hsize⟩

/-- A new stack or queue is an empty list. -/
lemma init_ends (k : Kind) (h : Store ι β) (head : ι) : ∃ h',
    (k.init h true (some head)).Ends (.ok (h', some ⟨⟨head⟩⟩, 0)) ∧ h'.Holds head [] := by
  have hlive := h.live_malloc_self head
  refine ⟨(h.malloc head).setLinks ((h.mem.links.setNext head head).setPrev head head), ?_,
    ⟨List.nodup_singleton head, ?_⟩, ?_⟩
  · have hinit : (dlistInit h (some head)).Ends
        (.ok ((h.malloc head).setLinks ((h.mem.links.setNext head head).setPrev head head),
          some ⟨head⟩, 0)) :=
      Heap.writeNext_bind hlive (Heap.writePrev_bind hlive (Comp.ends_pure.2 rfl))
    cases k <;> exact hinit.bind (Comp.ends_pure.2 rfl)
  · simp [Links.Adj]
  · simp

/-! ### Runs -/

/-- Every sequence of calls on a new stack or queue, with one element size, gives the results of
the sequence of elements.  The list behind it is circular, the elements are in its nodes, and
`prev` leads through them in the reverse order.  On an empty one `top` and `pop` return -1, and
leave `dest` and the list as they are. -/
theorem refines {h₁ : Store ι β} (k : Kind) (size : ℕ)
    (hinit : (k.init h true (some head)).Ends (.ok (h₁, some info, 0))) (cs : List (Call ι β))
    (hp : Calls.Provided (k.call info size) (Needs size) cs h₁) :
    ∃ h₂ xs, (Calls.calls (k.call info size) cs h₁).Ends
        (.ok (h₂, (Calls.expected (k.spec size) cs []).2)) ∧
      h₂.mem.links.Ring info.dlist.head xs ∧
      xs.map h₂.mem.data = (Calls.expected (k.spec size) cs []).1 ∧
      (h₂.mem.links.nextWalk info.dlist.head).Ends (.ok (.inl xs)) ∧
      (h₂.mem.links.prevWalk info.dlist.head).Ends (.ok (.inl xs.reverse)) ∧
      (xs = [] → ∀ dest, (k.top h₂ info dest size).Ends (.ok (dest, -1)) ∧
        (k.pop h₂ info dest size).Ends (.ok (h₂, dest, -1))) := by
  obtain ⟨h', hinit', hl⟩ := init_ends k h head
  obtain ⟨rfl, hinfo⟩ := Prod.mk.inj (Except.ok.inj (hinit.unique hinit'))
  obtain rfl : info = ⟨⟨head⟩⟩ := Option.some.inj (Prod.mk.inj hinfo).1
  have hrep : Rep ⟨⟨head⟩⟩ size h₁ [] := ⟨⟨[], hl, rfl⟩, by simp⟩
  obtain ⟨h₂, hcalls, ⟨xs, hl₂, hmap⟩, -⟩ := (call_refines k ⟨⟨head⟩⟩ size).calls cs hrep hp
  refine ⟨h₂, xs, hcalls, hl₂.ring, hmap, hl₂.ring.nextWalk_ends, hl₂.ring.prevWalk_ends, ?_⟩
  rintro rfl dest
  rw [k.top_eq, k.pop_eq]
  exact ⟨top_nil hl₂ dest size, pop_nil hl₂ dest size⟩

/-- A memory in which nothing is allocated. -/
def freshStore : Store ℕ Char where
  mem := ⟨⟨id, id⟩, fun _ => []⟩
  live _ := false

/-- The queue of two letters, on the head 0. -/
theorem refines_letters : ∃ h₁ h₂ : Store ℕ Char,
    (Kind.queue.init freshStore true (some 0)).Ends (.ok (h₁, some ⟨⟨0⟩⟩, 0)) ∧
      (Calls.calls (Kind.queue.call ⟨⟨0⟩⟩ 1)
        [.push 1 ['a'], .push 2 ['b'], .pop ['x', 'y'], .isEmpty] h₁).Ends
          (.ok (h₂, [.code 0, .code 0, .copied ['a', 'y'] 0, .code 0])) := by
  have hinit : (Kind.queue.init freshStore true (some 0)).Ends (.ok (_, some ⟨⟨0⟩⟩, 0)) := ⟨0, rfl⟩
  obtain ⟨h₂, xs, hcalls, -⟩ := refines .queue 1 hinit
    [.push 1 ['a'], .push 2 ['b'], .pop ['x', 'y'], .isEmpty]
    (.cons ⟨rfl, Nat.le_refl 1⟩ ⟨0, rfl⟩ (.cons ⟨rfl, Nat.le_refl 1⟩ ⟨0, rfl⟩
      (.cons (Nat.le_succ 1) ⟨0, rfl⟩ (.cons trivial ⟨0, rfl⟩ trivial))))
  exact ⟨_, h₂, hinit, hcalls⟩

end Dlist

end DemoClass
