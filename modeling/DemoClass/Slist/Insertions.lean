import DemoClass.Dlist.StackQueue
import DemoClass.Slist.HeadLoop

/-!
# What the insertions report (`01head_loop_slist.c`, `stack.c`, `queue.c`)

`slist_add` and `slist_add_tail` return -1 also when they have inserted the element: there is no
`return` in front of `err_malloc`.  `stack_push` and `queue_push` return 0 also when `dlist_add` and
`dlist_add_tail`, which return nothing, have found no memory.  `reports_iff` says which outcomes of
`malloc` each of the four reports.
-/

namespace DemoClass

namespace Insertions

variable {ι α β σ : Type}

/-- `malloc` returns `NULL` or an address that is not in use. -/
def Fresh (live : ι → Bool) (node : Option ι) : Prop := ∀ x ∈ node, live x = false

/-- The call of an insertion in the state `s` returns 0 exactly when the elements are `a` then, and
a negative value, with the state as it was, exactly when `malloc` returned `NULL`. -/
def Reports (R : σ → List α → Prop) (c : Comp MemFault (σ × ℤ)) (s : σ) (a : List α)
    (node : Option ι) : Prop :=
  ∃ s' ret, c.Ends (.ok (s', ret)) ∧ (ret = 0 ↔ R s' a) ∧ (ret < 0 ∧ s' = s ↔ node = none)

/-- The elements of a stack or a queue, which may have different sizes. -/
def Elements (info : Dlist.Info ι) (h : Dlist.Store ι β) (a : List (List β)) : Prop :=
  ∃ xs, h.Holds info.dlist.head xs ∧ xs.map h.mem.data = a

lemma Elements.unique {info : Dlist.Info ι} {h : Dlist.Store ι β} {a b : List (List β)}
    (ha : Elements info h a) (hb : Elements info h b) : a = b := by
  obtain ⟨xs, hl, rfl⟩ := ha
  obtain ⟨ys, hl', rfl⟩ := hb
  rw [hl.ring.unique hl'.ring]

/-! ### The value that is returned -/

section Returned

variable {R : σ → List α → Prop} {s : σ} {a b : List α} {live : ι → Bool} {failed done : ℤ}
  {node : Option ι}

/-- An insertion that returns `failed` when there is no memory, and `done` when it has inserted the
element. -/
lemma reports_iff_of_ends (f : Option ι → Comp MemFault (σ × ℤ))
    (hunique : ∀ s a b, R s a → R s b → a = b) (hR : R s b) (hab : a ≠ b)
    (hfailed : (f none).Ends (.ok (s, failed)))
    (hdone : ∀ x, live x = false → ∃ s', (f (some x)).Ends (.ok (s', done)) ∧ R s' a)
    (hnode : Fresh live node) :
    Reports R (f node) s a node ↔ if node = none then failed < 0 else done = 0 := by
  cases node with
  | none =>
      have hnot : ¬ R s a := fun ha => hab (hunique s a b ha hR)
      rw [if_pos rfl]
      constructor
      · rintro ⟨s₁, ret, hends, -, hneg⟩
        obtain ⟨rfl, rfl⟩ : s = s₁ ∧ failed = ret := by simpa using hfailed.unique hends
        exact (hneg.2 rfl).1
      · intro hlt
        refine ⟨s, failed, hfailed, ⟨fun he => ?_, fun ha => absurd ha hnot⟩, fun _ => rfl,
          fun _ => ⟨hlt, rfl⟩⟩
        exact absurd he (Int.ne_of_lt hlt)
  | some x =>
      obtain ⟨s', hends', hR'⟩ := hdone x (hnode x rfl)
      rw [if_neg (Option.some_ne_none x)]
      constructor
      · rintro ⟨s₁, ret, hends, hzero, -⟩
        obtain ⟨rfl, rfl⟩ : s' = s₁ ∧ done = ret := by simpa using hends'.unique hends
        exact hzero.2 hR'
      · rintro rfl
        exact ⟨s', 0, hends', ⟨fun _ => hR', fun _ => rfl⟩, by simp⟩

end Returned

/-! ### The four functions -/

variable [DecidableEq ι] {phead : ι} {node : Option ι}

lemma slistAdd_reports {h : HeadLoop.Store ι} {a : List ℤ} (hR : HeadLoop.Rep phead h a)
    (hnode : Fresh h.live node) (data : ℤ) :
    Reports (HeadLoop.Rep phead) (HeadLoop.slistAdd h phead node data) h (data :: a) node ↔
      node = none := by
  have hiff := reports_iff_of_ends (R := HeadLoop.Rep phead)
    (fun node => HeadLoop.slistAdd h phead node data) (fun _ _ _ => HeadLoop.Rep.unique) hR
    (List.cons_ne_self data a) (Comp.ends_pure.2 rfl) (fun x hx => HeadLoop.slistAdd_rep hR hx data)
    hnode
  rw [hiff]
  cases node <;> simp

lemma slistAddTail_reports {h : HeadLoop.Store ι} {a : List ℤ} (hR : HeadLoop.Rep phead h a)
    (hnode : Fresh h.live node) (data : ℤ) :
    Reports (HeadLoop.Rep phead) (HeadLoop.slistAddTail h phead node data) h (a ++ [data]) node ↔
      node = none := by
  have hne : a ++ [data] ≠ a := by simp
  have hiff := reports_iff_of_ends (R := HeadLoop.Rep phead)
    (fun node => HeadLoop.slistAddTail h phead node data) (fun _ _ _ => HeadLoop.Rep.unique) hR hne
    (Comp.ends_pure.2 rfl) (fun x hx => HeadLoop.slistAddTail_rep hR hx data) hnode
  rw [hiff]
  cases node <;> simp

lemma push_reports (k : Dlist.Kind) {h : Dlist.Store ι β} {info : Dlist.Info ι}
    {a : List (List β)} {data : List β} {size : ℕ} (hR : Elements info h a)
    (hnode : Fresh h.live node) (hd : size ≤ data.length) :
    Reports (Elements info) (k.push h info node data size) h (k.insert (data.take size) a) node ↔
      node ≠ none := by
  have hne : k.insert (data.take size) a ≠ a := by
    cases k <;> simp [Dlist.Kind.insert]
  have hfailed : (k.push h info none data size).Ends (.ok (h, 0)) := by
    cases k <;> exact Comp.ends_pure.2 rfl
  have hdone : ∀ x, h.live x = false → ∃ h',
      (k.push h info (some x) data size).Ends (.ok (h', 0)) ∧
        Elements info h' (k.insert (data.take size) a) := by
    obtain ⟨xs, hl, rfl⟩ := hR
    intro x hx
    obtain ⟨h', hends, hl', hmap⟩ := k.push_ends hl hx hd
    exact ⟨h', hends, _, hl', hmap⟩
  have hiff := reports_iff_of_ends (R := Elements info) (fun node => k.push h info node data size)
    (fun _ _ _ => Elements.unique) hR hne hfailed hdone hnode
  rw [hiff]
  cases node <;> simp

/-- The insertions of the list report the outcome when `malloc` finds no memory, and the pushes
when it finds some. -/
theorem reports_iff :
    (∀ (h : HeadLoop.Store ι) (phead : ι) (a : List ℤ) (node : Option ι) (data : ℤ),
      HeadLoop.Rep phead h a → Fresh h.live node →
        (Reports (HeadLoop.Rep phead) (HeadLoop.slistAdd h phead node data) h (data :: a) node ↔
          node = none) ∧
        (Reports (HeadLoop.Rep phead) (HeadLoop.slistAddTail h phead node data) h (a ++ [data])
          node ↔ node = none)) ∧
    ∀ (h : Dlist.Store ι β) (info : Dlist.Info ι) (a : List (List β)) (node : Option ι)
        (data : List β) (size : ℕ),
      Elements info h a → Fresh h.live node → size ≤ data.length →
        (Reports (Elements info) (Dlist.stackPush h info node data size) h (data.take size :: a)
          node ↔ node ≠ none) ∧
        (Reports (Elements info) (Dlist.queuePush h info node data size) h (a ++ [data.take size])
          node ↔ node ≠ none) := by
  refine ⟨fun _ _ _ _ data hR hnode => ⟨?_, ?_⟩, fun _ _ _ _ _ _ hR hnode hd => ⟨?_, ?_⟩⟩
  · exact slistAdd_reports hR hnode data
  · exact slistAddTail_reports hR hnode data
  · exact push_reports .stack hR hnode hd
  · exact push_reports .queue hR hnode hd

/-! ### The outcomes that are not reported -/

/-- A new list on the head 0. -/
def emptySlist : HeadLoop.Store ℕ := ⟨⟨fun _ => 0, fun _ => 0⟩, fun x => x.beq 0⟩

lemma emptySlist_rep : HeadLoop.Rep 0 emptySlist [] :=
  ⟨[], ⟨List.nodup_singleton 0, rfl, by simp [emptySlist]⟩, rfl⟩

/-- A new stack on the head 0. -/
def emptyDlist : Dlist.Store ℕ Char := ⟨⟨⟨fun _ => 0, fun _ => 0⟩, fun _ => []⟩, fun x => x.beq 0⟩

lemma emptyDlist_elements : Elements ⟨⟨0⟩⟩ emptyDlist [] :=
  ⟨[], ⟨⟨List.nodup_singleton 0, by simp [emptyDlist, Links.Adj]⟩, by simp [emptyDlist]⟩, rfl⟩

/-- The node 1 is inserted in an empty list, and -1 is returned; there is no memory for an element
of an empty stack, and 0 is returned. -/
theorem not_reports_one :
    ¬ Reports (HeadLoop.Rep 0) (HeadLoop.slistAdd emptySlist 0 (some 1) 7) emptySlist [7]
        (some 1) ∧
      ¬ Reports (Elements ⟨⟨0⟩⟩) (Dlist.stackPush emptyDlist ⟨⟨0⟩⟩ none ['a'] 1) emptyDlist
        [['a']] (none : Option ℕ) := by
  have hfresh : Fresh emptySlist.live (some 1) := by
    rintro x ⟨⟩
    rfl
  refine ⟨fun h => ?_, fun h => ?_⟩
  · exact Option.some_ne_none 1 ((slistAdd_reports emptySlist_rep hfresh 7).1 h)
  · have hnone : Fresh emptyDlist.live none := fun _ hx => absurd hx (by simp)
    exact (push_reports .stack emptyDlist_elements hnone (Nat.le_refl 1)).1 h rfl

/-- There is no memory for a node of the empty list, and some for an element of the empty queue. -/
theorem reports_iff_none :
    Reports (HeadLoop.Rep 0) (HeadLoop.slistAddTail emptySlist 0 none 7) emptySlist [7]
        (none : Option ℕ) ∧
      Reports (Elements ⟨⟨0⟩⟩) (Dlist.queuePush emptyDlist ⟨⟨0⟩⟩ (some 1) ['a'] 1) emptyDlist
        [['a']] (some 1) := by
  have hnone : Fresh emptySlist.live none := fun _ hx => absurd hx (by simp)
  have hfresh : Fresh emptyDlist.live (some 1) := by
    rintro x ⟨⟩
    rfl
  exact ⟨((reports_iff (β := Char)).1 emptySlist 0 [] none 7 emptySlist_rep hnone).2.2 rfl,
    (reports_iff.2 emptyDlist ⟨⟨0⟩⟩ [] (some 1) ['a'] 1 emptyDlist_elements hfresh
      (Nat.le_refl 1)).2.2 (Option.some_ne_none 1)⟩

end Insertions

end DemoClass
