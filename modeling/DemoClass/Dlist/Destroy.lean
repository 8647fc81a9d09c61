import DemoClass.Dlist.Dlist
import DemoClass.Lib.Calls

/-!
# Destroying a list (`dlist_destroy`)

`dlist_destroy` walks round the list, reads the successor of every node before `dlist_del` links
its neighbours to each other and frees it, and frees the head in the end.  In front of the node on
which the walk stands nothing is left but the head, so that the list that is still in use is always
the head with the nodes to come.
-/

namespace DemoClass

namespace Dlist

variable {ι β : Type} [DecidableEq ι]

/-- The variables of `dlist_for_each_safe`, and the nodes that `todo` was called for. -/
structure Walk (ι β : Type) where
  h : Store ι β
  done : List ι
  cur : ι

def forEachSafeBody (todo : Store ι β → ι → Comp MemFault (Store ι β)) (info : DlistInfo ι)
    (s : Walk ι β) : Comp MemFault (Walk ι β ⊕ Store ι β × List ι) :=
  if s.cur = info.head then pure (.inr (s.h, s.done))
  else do
    let Next ← s.h.readNext s.cur
    let h ← todo s.h s.cur
    pure (.inl ⟨h, s.done ++ [s.cur], Next⟩)

/-- `dlist_for_each_safe`, with the nodes that `todo` was called for, in this order. -/
def dlistForEachSafe (h : Store ι β) (info : DlistInfo ι)
    (todo : Store ι β → ι → Comp MemFault (Store ι β)) : Comp MemFault (Store ι β × List ι) := do
  let cur ← h.readNext info.head
  Comp.loop (forEachSafeBody todo info) ⟨h, [], cur⟩

/-- `dlist_destroy`, with the addresses that it frees, in this order, and the value it returns. -/
def dlistDestroy (h : Store ι β) (info : DlistInfo ι) :
    Comp MemFault (Store ι β × List ι × ℤ) := do
  let r ← dlistForEachSafe h info dlistDel
  let h ← r.1.free info.head
  pure (h, r.2 ++ [info.head], 0)

/-! ### The calls that build a list -/

/-- A call of `dlist_add` or `dlist_add_tail`, with what its `malloc` returns, or of `dlist_del`. -/
inductive Edit (ι β : Type) where
  | add (node : Option ι) (data : List β) (size : ℕ)
  | addTail (node : Option ι) (data : List β) (size : ℕ)
  | del (node : ι)
deriving DecidableEq

namespace Edit

def call (info : DlistInfo ι) (e : Edit ι β) (h : Store ι β) : Comp MemFault (Store ι β × Unit) :=
  match e with
  | .add node data size => do
    let h ← dlistAdd h info node data size
    pure (h, ())
  | .addTail node data size => do
    let h ← dlistAddTail h info node data size
    pure (h, ())
  | .del node => do
    let h ← dlistDel h node
    pure (h, ())

/-- What a call needs: an address that is not in use and an array that holds the data, or a node
of the list. -/
def Needs (info : DlistInfo ι) (e : Edit ι β) (h : Store ι β) : Prop :=
  match e with
  | .add none _ _ | .addTail none _ _ => True
  | .add (some node) data size | .addTail (some node) data size =>
    h.live node = false ∧ size ≤ data.length
  | .del node => ∃ xs, h.Holds info.head xs ∧ node ∈ xs

/-- What a call does to the sequence of the nodes. -/
def spec (e : Edit ι β) (xs : List ι) : List ι × Unit :=
  match e with
  | .add none _ _ | .addTail none _ _ => (xs, ())
  | .add (some node) _ _ => (node :: xs, ())
  | .addTail (some node) _ _ => (xs ++ [node], ())
  | .del node => (xs.erase node, ())

end Edit

variable {h h₀ h₁ : Store ι β} {info : DlistInfo ι} {x head : ι} {xs done : List ι}

lemma dlistInit_ends (h : Store ι β) (head : ι) : ∃ h',
    (dlistInit h (some head)).Ends (.ok (h', some ⟨head⟩, 0)) ∧ h'.Holds head [] := by
  have hlive := h.live_malloc_self head
  refine ⟨_, Heap.writeNext_bind hlive (Heap.writePrev_bind hlive (Comp.ends_pure.2 rfl)),
    ⟨by simp, ?_⟩, fun y hy => ?_⟩
  · simp [Links.Adj]
  · obtain rfl : y = head := by simpa using hy
    exact hlive

/-- Every call keeps the list in use. -/
lemma Edit.call_refines (info : DlistInfo ι) : Calls.Refines (call (β := β) info) (Needs info) spec
    fun h xs => h.Holds info.head xs := by
  rintro (⟨_ | node, data, size⟩ | ⟨_ | node, data, size⟩ | node) h xs hl hneeds
  · exact ⟨h, Comp.ends_pure.2 rfl, hl⟩
  · exact ⟨_, (dlistAdd_ends hl hneeds.1 hneeds.2).bind (Comp.ends_pure.2 rfl),
      holds_inserted hl (List.Perm.refl _) (hl.ring.splice_head (hl.notMem hneeds.1)) _⟩
  · exact ⟨h, Comp.ends_pure.2 rfl, hl⟩
  · exact ⟨_, (dlistAddTail_ends hl hneeds.1 hneeds.2).bind (Comp.ends_pure.2 rfl),
      holds_inserted hl (List.perm_append_singleton node xs)
        (hl.ring.splice_last (hl.notMem hneeds.1)) _⟩
  · obtain ⟨ys, hl', hmem⟩ := hneeds
    obtain rfl := hl.ring.unique hl'.ring
    obtain ⟨us, vs, rfl⟩ := List.append_of_mem hmem
    have hus : node ∉ us := fun hm => hl.ring.notMem_rest (by simp [hm])
    obtain ⟨l, hdel, hring⟩ := dlistDel_ends hl
    have herase : (us ++ node :: vs).erase node = us ++ vs := by
      rw [List.erase_append_right _ hus, List.erase_cons_head]
    refine ⟨_, hdel.bind (Comp.ends_pure.2 rfl), ?_⟩
    show Heap.Holds _ info.head ((us ++ node :: vs).erase node)
    rw [herase]
    exact holds_deleted hl hring

/-! ### The walk -/

/-- What is still in use when the walk has freed `xs`. -/
def freed (live : ι → Bool) (xs : List ι) (y : ι) : Bool := live y && decide (y ∉ xs)

/-- The walk frees the nodes that are left, one after the other. -/
lemma forEachSafe_ends (hl : h.Holds info.head xs) (done : List ι) : ∃ h',
    (Comp.loop (forEachSafeBody dlistDel info) ⟨h, done, xs.headD info.head⟩).Ends
      (.ok (h', done ++ xs)) ∧ h'.live = freed h.live xs ∧ Heap.Frame (info.head :: xs) h h' := by
  induction xs generalizing h done with
  | nil =>
      refine ⟨h, Comp.Ends.loop_inr ?_, ?_, Heap.Frame.refl _ _⟩
      · simp [forEachSafeBody]
      · funext y
        simp [freed]
  | cons x xs ih =>
      have hl' : h.Holds info.head ([] ++ x :: xs) := hl
      have hhead : x ≠ info.head := fun he => hl.ring.head_notMem (by simp [he])
      have hnext : h.mem.links.next x = xs.headD info.head := hl'.ring.next_mem
      obtain ⟨h', hloop, hlive, hframe⟩ := ih (holds_deleted_self hl') (done ++ [x])
      rw [List.append_assoc, List.singleton_append] at hloop
      refine ⟨h', Comp.Ends.loop_inl ?_ hloop, ?_, ?_⟩
      · rw [List.headD_cons, forEachSafeBody, if_neg hhead]
        refine Heap.readNext_bind (hl.live x (by simp)) ((dlistDel_eq hl').bind ?_)
        rw [hnext]
        exact Comp.ends_pure.2 rfl
      · rw [hlive]
        funext y
        by_cases hy : y = x
        · simp [freed, deleted, hy]
        · simp [freed, deleted, hy]
      · refine (frame_deleted hl').trans (hframe.mono ?_)
        exact List.cons_subset_cons _ (List.subset_cons_self x xs)

lemma dlistDestroy_frees (hl : h.Holds info.head xs) : ∃ h',
    (dlistDestroy h info).Ends (.ok (h', xs ++ [info.head], 0)) ∧
      h'.live = freed h.live (xs ++ [info.head]) ∧ Heap.Frame (info.head :: xs) h h' := by
  obtain ⟨h', hloop, hlive, hframe⟩ := forEachSafe_ends hl []
  have hhead : h'.live info.head = true := by
    simp [hlive, freed, hl.live_head, hl.ring.head_notMem]
  have hwalk : (dlistForEachSafe h info dlistDel).Ends (.ok (h', xs)) := by
    refine Heap.readNext_bind hl.live_head ?_
    rw [hl.ring.next_head]
    exact hloop
  refine ⟨_, hwalk.bind (Heap.free_bind hhead (Comp.ends_pure.2 rfl)), ?_, ?_⟩
  · show Function.update h'.live info.head false = _
    rw [hlive]
    funext y
    by_cases hy : y = info.head
    · simp [freed, hy]
    · simp [freed, hy]
  · exact hframe.trans ((Heap.Frame.free h' info.head).mono (by simp))

lemma dlistDestroy_ends (hl : h.Holds info.head xs) : ∃ h',
    (dlistDestroy h info).Ends (.ok (h', xs ++ [info.head], 0)) ∧
      h'.live = freed h.live (xs ++ [info.head]) := by
  obtain ⟨h', hends, hlive, -⟩ := dlistDestroy_frees hl
  exact ⟨h', hends, hlive⟩

/-- **`dlist_destroy` frees everything once.**  Behind every sequence of calls of `dlist_add`,
`dlist_add_tail` and `dlist_del` on a list of `dlist_init`, it ends, and it reaches no cell that is
not allocated.  It frees the nodes of the list and the head, which are all different and were all
allocated, and no other address. -/
theorem dlistDestroy_frees_once (hinit : (dlistInit h₀ (some head)).Ends (.ok (h₁, some info, 0)))
    (es : List (Edit ι β)) (hp : Calls.Provided (Edit.call info) (Edit.Needs info) es h₁) :
    ∃ h h' us, (Calls.calls (Edit.call info) es h₁).Ends (.ok (h, us)) ∧
      h.Holds info.head (Calls.expected Edit.spec es []).1 ∧
      (dlistDestroy h info).Ends
        (.ok (h', (Calls.expected Edit.spec es []).1 ++ [info.head], 0)) ∧
      ((Calls.expected Edit.spec es []).1 ++ [info.head]).Nodup ∧
      ∀ y, (y ∈ (Calls.expected Edit.spec es []).1 ++ [info.head] →
          h.live y = true ∧ h'.live y = false) ∧
        (y ∉ (Calls.expected Edit.spec es []).1 ++ [info.head] → h'.live y = h.live y) := by
  obtain ⟨h₁', hinit', hl₁⟩ := dlistInit_ends h₀ head
  obtain ⟨rfl, rfl⟩ : h₁ = h₁' ∧ info = ⟨head⟩ := by simpa using hinit.unique hinit'
  obtain ⟨h, hcalls, hl⟩ := (Edit.call_refines ⟨head⟩).calls es hl₁ hp
  obtain ⟨h', hdestroy, hlive⟩ := dlistDestroy_ends hl
  have hperm := List.perm_append_singleton head (Calls.expected Edit.spec es []).1
  refine ⟨h, h', _, hcalls, hl, hdestroy, hperm.nodup_iff.2 hl.ring.nodup, fun y => ⟨?_, ?_⟩⟩
  · intro hy
    exact ⟨hl.live y (hperm.mem_iff.1 hy), by simp [hlive, freed, hy]⟩
  · intro hy
    simp [hlive, freed, hy]

/-- A node is added, deleted, and its address used again. -/
theorem dlistDestroy_frees_once_again : ∃ h₁ h h' : Store ℕ ℕ,
    (dlistInit ⟨⟨⟨id, id⟩, fun _ => []⟩, fun _ => false⟩ (some 0)).Ends (.ok (h₁, some ⟨0⟩, 0)) ∧
      (∃ us, (Calls.calls (Edit.call ⟨0⟩)
        [.add (some 1) [7] 1, .del 1, .addTail (some 1) [8] 1] h₁).Ends (.ok (h, us))) ∧
      (dlistDestroy h ⟨0⟩).Ends (.ok (h', [1, 0], 0)) := by
  let h₀ : Store ℕ ℕ := ⟨⟨⟨id, id⟩, fun _ => []⟩, fun _ => false⟩
  obtain ⟨h₁, hinit, hl₁⟩ := dlistInit_ends h₀ 0
  have hone : h₁.live 1 = false := by
    have hends : (dlistInit h₀ (some 0)).Ends (.ok (_, some ⟨0⟩, 0)) := ⟨0, rfl⟩
    obtain ⟨rfl, -⟩ := Prod.mk.inj (Except.ok.inj (hinit.unique hends))
    rfl
  have hadd : (Edit.call ⟨0⟩ (.add (some 1) [7] 1) h₁).Ends (.ok (inserted h₁ 1 _ [7], ())) :=
    (dlistAdd_ends hl₁ hone le_rfl).bind (Comp.ends_pure.2 rfl)
  have hl₂ : Heap.Holds _ 0 ([] ++ 1 :: []) :=
    holds_inserted hl₁ (List.Perm.refl _) (hl₁.ring.splice_head (hl₁.notMem hone)) [7]
  obtain ⟨l, hdel, -⟩ := dlistDel_ends hl₂
  have hp : Calls.Provided (Edit.call ⟨0⟩) (Edit.Needs ⟨0⟩)
      [.add (some 1) [7] 1, .del 1, .addTail (some 1) [8] 1] h₁ := by
    refine Calls.Provided.cons ⟨hone, le_rfl⟩ hadd ?_
    refine Calls.Provided.cons ⟨[1], hl₂, by simp⟩ (hdel.bind (Comp.ends_pure.2 rfl)) ?_
    exact ⟨⟨by simp, le_rfl⟩, fun _ _ => trivial⟩
  obtain ⟨h, h', us, hcalls, -, hdestroy, -⟩ := dlistDestroy_frees_once hinit _ hp
  exact ⟨h₁, h, h', hinit, ⟨us, hcalls⟩, hdestroy⟩

end Dlist

end DemoClass
