import DemoClass.KernelList.ListHead
import DemoClass.Lib.Comp
import DemoClass.Lib.ListSort

/-!
# Insertion sort of an intrusive list (`sort_list.c`)

`insert_sort` moves the nodes of the list one by one to their place before the
nodes that were already sorted, by relinking.  `insertSort_ends` says that it
terminates on every ring, whatever the comparison is, and that it leaves the
`ListSort.insertionSort` of the sequence.
-/

namespace DemoClass

open ListSort

namespace KernelList

variable {ι ε : Type} [DecidableEq ι]

/-- One round of the inner loop of `insert_sort`, on the links and `j`. -/
def insertSortBackBody (cmp : ι → ι → Comp ε ℤ) (head i : ι) (s : Links ι × ι) :
    Comp ε ((Links ι × ι) ⊕ (Links ι × ι)) :=
  if s.2 = head then pure (.inr s)
  else do
    if (← cmp s.2 i) ≤ 0 then
      pure (.inr (s.1._listAdd i s.2 (s.1.next s.2), s.2))
    else
      pure (.inl (s.1, s.1.prev s.2))

/-- The inner loop of `insert_sort` and the test after it. -/
def insertSortBack (cmp : ι → ι → Comp ε ℤ) (head i : ι) (l : Links ι) (j : ι) :
    Comp ε (Links ι) := do
  let s ← Comp.loop (insertSortBackBody cmp head i) (l, j)
  pure (if s.2 = head then s.1._listAdd i s.2 (s.1.next s.2) else s.1)

/-- One round of the outer loop of `insert_sort`, on the links and `i`. -/
def insertSortBody (cmp : ι → ι → Comp ε ℤ) (head : ι) (s : Links ι × ι) :
    Comp ε ((Links ι × ι) ⊕ Links ι) :=
  if s.2 = head then pure (.inr s.1)
  else do
    let j := s.1.prev s.2
    let Next := s.1.next s.2
    if (← cmp s.2 j) ≥ 0 then
      pure (.inl (s.1, Next))
    else
      let l ← insertSortBack cmp head s.2 (s.1.listDel s.2) j
      pure (.inl (l, Next))

/-- `insert_sort` -/
def insertSort (cmp : ι → ι → Comp ε ℤ) (head : ι) (l : Links ι) : Comp ε (Links ι) :=
  Comp.loop (insertSortBody cmp head) (l, l.next (l.next head))

variable {cmp : ι → ι → Comp ε ℤ} {c : ι → ι → ℤ} {head i : ι}

/-- The inner loop walks back over the nodes that compare greater than `i`. -/
lemma insertSortBack_ends {l : Links ι} {us vs : List ι} (hr : l.Ring head (us ++ vs))
    (hi : i ∉ head :: (us ++ vs)) (hcmp : ∀ u ∈ us, cmp u i = pure (c u i)) :
    ∃ l', (insertSortBack cmp head i l (us.getLastD head)).Ends (.ok l') ∧
      l'.Ring head (insertBack c i us ++ vs) := by
  induction us using List.reverseRecOn generalizing vs with
  | nil =>
      refine ⟨l._listAdd i head (l.next head), ?_, ?_⟩
      · refine Comp.Ends.bind (a := (l, head)) (Comp.Ends.loop_inr ?_) (by simp)
        simp [insertSortBackBody]
      · simpa [insertBack, Links._listAdd_eq] using Links.Ring.splice_head hr hi
  | append_singleton us u ih =>
      have hu : u ≠ head := by
        rintro rfl
        exact hr.head_notMem (by simp)
      have hcu : cmp u i = pure (c u i) := hcmp u (by simp)
      simp only [List.getLastD_concat]
      by_cases hle : c u i ≤ 0
      · refine ⟨l._listAdd i u (l.next u), ?_, ?_⟩
        · refine Comp.Ends.bind (a := (l._listAdd i u (l.next u), u))
            (Comp.Ends.loop_inr ?_) (by simp [hu])
          simp [insertSortBackBody, hu, hcu, hle]
        · have hn : ¬ 0 < c u i := by omega
          have hb : insertBack c i (us ++ [u]) = (us ++ [u]) ++ [i] := by
            simp [insertBack, hn]
          rw [hb, Links._listAdd_eq]
          simpa using hr.splice_after hi
      · have hpos : 0 < c u i := by omega
        have hr' : l.Ring head (us ++ (u :: vs)) := by simpa using hr
        obtain ⟨l', hl', hring⟩ := ih hr' (by simpa using hi) fun v hv => hcmp v (by simp [hv])
        refine ⟨l', ?_, ?_⟩
        · refine Comp.Ends.loop_inl_bind (t := (l, us.getLastD head)) ?_ hl'
          simp [insertSortBackBody, hu, hcu, hle, hr'.prev_mem]
        · have hb : insertBack c i (us ++ [u]) = insertBack c i us ++ [u] := by
            simp [insertBack, hpos]
          rw [hb]
          simpa using hring

/-- The outer loop, from any point on: `xs` is sorted already, `ys` is still to come. -/
lemma insertSortLoop_ends {ys : List ι} : ∀ {l : Links ι} {xs : List ι},
    xs ≠ [] → l.Ring head (xs ++ ys) →
    (∀ a ∈ xs ++ ys, ∀ b ∈ xs ++ ys, cmp a b = pure (c a b)) →
    ∃ l', (Comp.loop (insertSortBody cmp head) (l, ys.headD head)).Ends (.ok l') ∧
      l'.Ring head (ys.foldl (insertStep c) xs) := by
  induction ys with
  | nil =>
      intro l xs _ hr _
      refine ⟨l, Comp.Ends.loop_inr ?_, by simpa using hr⟩
      simp [insertSortBody]
  | cons i ys ih =>
      intro l xs hxs hr hcmp
      obtain ⟨us, j, rfl⟩ : ∃ us j, xs = us ++ [j] :=
        ⟨xs.dropLast, xs.getLast hxs, (List.dropLast_append_getLast hxs).symm⟩
      have hi : i ≠ head := by
        rintro rfl
        exact hr.head_notMem (by simp)
      -- `j` is the last node that is sorted already, `i` the first one that is not
      have hprev : l.prev i = j := by simpa using hr.prev_mem
      have hnext : l.next i = ys.headD head := hr.next_mem
      have hcij : cmp i j = pure (c i j) := hcmp i (by simp) j (by simp)
      by_cases hge : 0 ≤ c i j
      · have hr' : l.Ring head ((us ++ [j] ++ [i]) ++ ys) := by simpa using hr
        obtain ⟨l', hl', hring⟩ := ih (by simp) hr' (by simpa using hcmp)
        refine ⟨l', Comp.Ends.loop_inl (t := (l, ys.headD head)) ?_ hl', ?_⟩
        · simp [insertSortBody, hi, hprev, hnext, hcij, hge]
        · simpa [insertStep, hge] using hring
      · have hfresh : i ∉ head :: (us ++ [j] ++ ys) := hr.notMem_rest
        obtain ⟨l₁, hl₁, hr₁⟩ := insertSortBack_ends (c := c) hr.listDel hfresh
          fun u hu => hcmp u (List.mem_append_left _ hu) i (by simp)
        -- the nodes are the same, so the comparison goes on answering
        have hmem : ∀ a, a ∈ insertBack c i (us ++ [j]) ++ ys → a ∈ us ++ [j] ++ i :: ys := by
          intro a ha
          rcases List.mem_append.1 ha with ha | ha
          · rcases List.mem_cons.1 ((insertBack_perm c i _).mem_iff.1 ha) with rfl | ha
            · simp
            · exact List.mem_append_left _ ha
          · simp [ha]
        obtain ⟨l', hl', hring⟩ := ih (by simp [insertBack]) hr₁
          fun a ha b hb => hcmp a (hmem a ha) b (hmem b hb)
        refine ⟨l', Comp.Ends.loop_inl (t := (l₁, ys.headD head)) ?_ hl', ?_⟩
        · have hbody : insertSortBody cmp head (l, i) =
              insertSortBack cmp head i (l.listDel i) j >>= fun l =>
                pure (.inl (l, ys.headD head)) := by
            simp [insertSortBody, hi, hprev, hnext, hcij, hge]
          rw [List.headD_cons, hbody]
          exact Comp.Ends.bind (by simpa using hl₁) (by simp)
        · simpa [insertStep, hge] using hring

/-- **Insertion sort of an intrusive list.**  On every ring whose nodes the
comparison can compare, `insert_sort` terminates and leaves the ring of the sorted
sequence; the head is never compared. -/
theorem insertSort_ends {l : Links ι} {xs : List ι} (hr : l.Ring head xs)
    (hcmp : ∀ a ∈ xs, ∀ b ∈ xs, cmp a b = pure (c a b)) :
    ∃ l', (insertSort cmp head l).Ends (.ok l') ∧ l'.Ring head (insertionSort c xs) := by
  cases xs with
  | nil =>
      refine ⟨l, Comp.Ends.loop_inr ?_, hr⟩
      have hn : l.next head = head := hr.next_head
      simp [insertSortBody, hn]
  | cons x ys =>
      have hn : l.next head = x := hr.next_head
      have hr' : l.Ring head ([] ++ x :: ys) := hr
      have hn' : l.next x = ys.headD head := hr'.next_mem
      have hr'' : l.Ring head ([x] ++ ys) := hr
      have h := insertSortLoop_ends (by simp) hr'' hcmp
      simpa [insertSort, hn, hn', insertionSort, insertStep] using h

/-- **Insertion sort is stable.**  On every ring, and for every total preorder,
`insert_sort` terminates and leaves a ring of the same nodes on the same head, in
nondecreasing order and with nodes that compare equal in the order they had. -/
theorem insertSort_isStableSort (l : Links ι) (head : ι) (xs : List ι) (cmp : ι → ι → ℤ)
    (hr : l.Ring head xs) (hc : TotalPreorderOn cmp Set.univ) :
    ∃ l' ys, (insertSort (fun a b => (pure (cmp a b) : Comp ε ℤ)) head l).Ends (.ok l') ∧
      l'.Ring head ys ∧ IsStableSort cmp xs ys := by
  obtain ⟨l', hl', hring⟩ := insertSort_ends (c := cmp) hr fun a _ b _ => rfl
  exact ⟨l', _, hl', hring, insertionSort_isStableSort hc xs⟩

/-- Three nodes compared by their tens, two of which compare equal. -/
theorem insertSort_isStableSort_tens : ∃ l' ys,
    (insertSort (fun a b : ℕ => (pure (((a / 10 : ℕ) : ℤ) - ((b / 10 : ℕ) : ℤ)) : Comp Unit ℤ)) 0
      ⟨fun n => if n = 0 then 21 else if n = 21 then 15 else if n = 15 then 20 else 0,
        fun n => if n = 0 then 20 else if n = 20 then 15 else if n = 15 then 21 else 0⟩).Ends
      (.ok l') ∧
    l'.Ring 0 ys ∧ IsStableSort (fun a b => ((a / 10 : ℕ) : ℤ) - ((b / 10 : ℕ) : ℤ))
      [21, 15, 20] ys :=
  insertSort_isStableSort _ 0 [21, 15, 20] _ ⟨by decide, by simp [Links.Adj]⟩
    ⟨fun a _ b _ => by omega, fun a _ b _ d _ => by omega⟩

end KernelList

end DemoClass
