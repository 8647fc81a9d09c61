import DemoClass.KernelList.ListHead
import DemoClass.Lib.Comp
import DemoClass.Lib.ExchangeSort
import Mathlib.Logic.Equiv.Basic

/-!
# Bubble sort and selection sort of an intrusive list (`sort_list.c`)

Both sorts exchange two nodes by relinking them (`swap`), and then repair their cursors,
for the nodes these stand on have moved.  On the sequence of the ring an exchange is an
exchange of two elements, in whichever order the two are given and also when they are
neighbours (`swap_ring`, `swap_ring'`); `swap_trades_places` is what becomes of all links.
-/

namespace DemoClass

open ListSort

namespace KernelList

variable {ι ε : Type} [DecidableEq ι]

/-- `swap`, with its local variable at the address `node` -/
def swap (node : ι) (l : Links ι) (pa pb : ι) : Links ι :=
  let l := l.listHeadInit node
  let l := l._listAdd node pa (l.next pa)
  let l := l.listDel pa
  let l := l._listAdd pa pb (l.next pb)
  let l := l.listDel pb
  let l := l._listAdd pb node (l.next node)
  l.listDel node

/-- The links and the cursors `start` and `end` of `bubble_sort`. -/
structure Bubbling (ι : Type) where
  l : Links ι
  start : ι
  last : ι

/-- One round of the inner loop of `bubble_sort`. -/
def bubblePassBody (cmp : ι → ι → Comp ε ℤ) (node head : ι) (s : Bubbling ι) :
    Comp ε (Bubbling ι ⊕ Bubbling ι) :=
  if s.start ≠ head ∧ s.start ≠ s.last then do
    if (← cmp s.start (s.l.next s.start)) > 0 then
      let l := swap node s.l s.start (s.l.next s.start)
      let start := l.prev s.start
      let last := if start = s.last then l.next s.last else s.last
      pure (.inl ⟨l, l.next start, last⟩)
    else pure (.inl { s with start := s.l.next s.start })
  else pure (.inr s)

/-- One round of the outer loop of `bubble_sort`, on the links and `end`. -/
def bubbleSortBody (cmp : ι → ι → Comp ε ℤ) (node head : ι) (s : Links ι × ι) :
    Comp ε ((Links ι × ι) ⊕ Links ι) :=
  if s.2 ≠ head then do
    let t ← Comp.loop (bubblePassBody cmp node head) ⟨s.1, s.1.next head, s.2⟩
    pure (.inl (t.l, t.l.prev t.last))
  else pure (.inr s.1)

/-- `bubble_sort` -/
def bubbleSort (cmp : ι → ι → Comp ε ℤ) (node head : ι) (l : Links ι) : Comp ε (Links ι) :=
  Comp.loop (bubbleSortBody cmp node head) (l, l.prev head)

/-- One round of the inner loop of `select_sort`, on `j` and `min`. -/
def selectMinBody (cmp : ι → ι → Comp ε ℤ) (head : ι) (l : Links ι) (s : ι × ι) :
    Comp ε ((ι × ι) ⊕ ι) :=
  if s.1 ≠ head then do
    if (← cmp s.1 s.2) < 0 then pure (.inl (l.next s.1, s.1))
    else pure (.inl (l.next s.1, s.2))
  else pure (.inr s.2)

/-- One round of the outer loop of `select_sort`, on the links and `i`. -/
def selectSortBody (cmp : ι → ι → Comp ε ℤ) (node head : ι) (s : Links ι × ι) :
    Comp ε ((Links ι × ι) ⊕ Links ι) :=
  if s.2 ≠ s.1.prev head then do
    let min ← Comp.loop (selectMinBody cmp head s.1) (s.1.next s.2, s.2)
    if min ≠ s.2 then
      let l := swap node s.1 min s.2
      pure (.inl (l, l.next min))
    else pure (.inl (s.1, s.1.next s.2))
  else pure (.inr s.1)

/-- `select_sort` -/
def selectSort (cmp : ι → ι → Comp ε ℤ) (node head : ι) (l : Links ι) : Comp ε (Links ι) :=
  Comp.loop (selectSortBody cmp node head) (l, l.next head)

variable {cmp : ι → ι → Comp ε ℤ} {c : ι → ι → ℤ} {node head a b x : ι} {l : Links ι}
variable {us ms vs ws xs : List ι}

/-! ### The exchange -/

/-- A node moves behind another one. -/
lemma move_ring (hr : l.Ring head (us ++ x :: vs)) (hx : a ∉ head :: (us ++ x :: vs)) :
    (l._listAdd a x (l.next x)).Ring head (us ++ x :: a :: vs) := by
  have hr' : l.Ring head ((us ++ [x]) ++ vs) := by simpa using hr
  have hs := hr'.splice_after (x := a) (by simpa using hx)
  simpa [Links._listAdd_eq] using hs

/-- Exchanging a node with one behind it. -/
lemma swap_ring (hr : l.Ring head (us ++ a :: (ms ++ b :: vs)))
    (hnode : node ∉ head :: (us ++ a :: (ms ++ b :: vs))) :
    (swap node l a b).Ring head (us ++ b :: (ms ++ a :: vs)) := by
  have h₀ := hr.listHeadInit hnode
  have h₁ := move_ring h₀ hnode
  have h₂ := h₁.listDel
  have h₃ := move_ring (show Links.Ring _ head ((us ++ node :: ms) ++ b :: vs) by simpa using h₂)
    (show a ∉ head :: ((us ++ node :: ms) ++ b :: vs) by simpa using h₁.notMem_rest)
  have h₄ := h₃.listDel
  have hb := h₃.notMem_rest
  have h₅ := move_ring (show Links.Ring _ head (us ++ node :: (ms ++ a :: vs)) by simpa using h₄)
    (show b ∉ head :: (us ++ node :: (ms ++ a :: vs)) by simpa using hb)
  exact h₅.listDel

/-- Exchanging a node with one before it. -/
lemma swap_ring' (hr : l.Ring head (us ++ b :: (ms ++ a :: vs)))
    (hnode : node ∉ head :: (us ++ b :: (ms ++ a :: vs))) :
    (swap node l a b).Ring head (us ++ a :: (ms ++ b :: vs)) := by
  have h₀ := hr.listHeadInit hnode
  have h₁ := move_ring (show Links.Ring _ head ((us ++ b :: ms) ++ a :: vs) by simpa using h₀)
    (show node ∉ head :: ((us ++ b :: ms) ++ a :: vs) by simpa using hnode)
  have h₂ := h₁.listDel
  have h₃ := move_ring (show Links.Ring _ head (us ++ b :: (ms ++ node :: vs)) by simpa using h₂)
    (show a ∉ head :: (us ++ b :: (ms ++ node :: vs)) by simpa using h₁.notMem_rest)
  have h₄ := h₃.listDel
  have hb := h₃.notMem_rest
  have h₅ := move_ring (show Links.Ring _ head ((us ++ a :: ms) ++ node :: vs) by simpa using h₄)
    (show b ∉ head :: ((us ++ a :: ms) ++ node :: vs) by simpa using hb)
  have h₅' : (swap node l a b).Ring head ((us ++ a :: ms) ++ b :: vs) := h₅.listDel
  simpa using h₅'

/-- On the sequence, the two nodes trade places. -/
lemma map_swap_split (hs : (us ++ a :: (ms ++ b :: vs)).Nodup) :
    (us ++ a :: (ms ++ b :: vs)).map (Equiv.swap a b) = us ++ b :: (ms ++ a :: vs) := by
  have hfix : ∀ ys : List ι, a ∉ ys → b ∉ ys → ys.map (Equiv.swap a b) = ys := by
    intro ys ha hb
    refine (List.map_congr_left fun y hy => ?_).trans (List.map_id ys)
    exact Equiv.swap_apply_of_ne_of_ne (fun he => ha (he ▸ hy)) fun he => hb (he ▸ hy)
  have ha := (List.nodup_cons.1 (List.nodup_middle.1 hs)).1
  have hs' : ((us ++ a :: ms) ++ b :: vs).Nodup := by simpa using hs
  have hb := (List.nodup_cons.1 (List.nodup_middle.1 hs')).1
  simp only [List.mem_append, List.mem_cons, not_or] at ha hb
  rw [List.map_append, List.map_cons, List.map_append, List.map_cons, Equiv.swap_apply_left,
    Equiv.swap_apply_right, hfix us ha.1 hb.1.1, hfix ms ha.2.1 hb.1.2.2, hfix vs ha.2.2.2 hb.2]

lemma mem_of_swap (ha : a ∈ xs) (hb : b ∈ xs) (hx : x ∈ xs) : Equiv.swap a b x ∈ xs := by
  rw [Equiv.swap_apply_def]
  split_ifs
  · exact hb
  · exact ha
  · exact hx

/-- The exchange links the nodes of the ring and `node` among themselves, whatever these
links were. -/
lemma swap_within {S : Set ι} (hl : ∀ x ∈ S, x ≠ node → l.next x ∈ S ∧ l.prev x ∈ S)
    (hn : node ∈ S) (ha : a ∈ S) (hb : b ∈ S) : Links.Within S l (swap node l a b) := by
  have h₀ : Links.Within S l (l.listHeadInit node) := by
    refine ⟨fun x hx => ?_, fun x hx => ?_⟩
    · by_cases hxn : x = node
      · subst hxn
        simp [Links.listHeadInit, hn]
      · simpa [Links.listHeadInit, hxn] using hl x hx hxn
    · have hxn : x ≠ node := fun he => hx (he ▸ hn)
      simp [Links.listHeadInit, hxn]
  have h₂ := (h₀.spliceIn_next hn ha).unlink ha
  have h₄ := (h₂.spliceIn_next ha hb).unlink hb
  exact (h₄.spliceIn_next hb hn).unlink hn

/-- The exchange keeps the nodes. -/
lemma map_swap_perm (hs : xs.Nodup) (ha : a ∈ xs) (hb : b ∈ xs) :
    (xs.map (Equiv.swap a b)).Perm xs := by
  refine (List.perm_ext_iff_of_nodup (hs.map (Equiv.swap a b).injective) hs).2 fun x => ?_
  rw [List.mem_map]
  constructor
  · rintro ⟨y, hy, rfl⟩
    exact mem_of_swap ha hb hy
  · exact fun hx => ⟨Equiv.swap a b x, mem_of_swap ha hb hx, Equiv.swap_apply_self a b x⟩

/-- Exchanging two nodes, in whichever order they stand. -/
lemma swap_ring_map (hr : l.Ring head xs) (ha : a ∈ xs) (hb : b ∈ xs) (hab : a ≠ b)
    (hnode : node ∉ head :: xs) : (swap node l a b).Ring head (xs.map (Equiv.swap a b)) := by
  have hs : xs.Nodup := (List.nodup_cons.1 hr.nodup).2
  obtain ⟨us, ws, rfl⟩ := List.append_of_mem ha
  rcases List.mem_append.1 hb with hb' | hb'
  · -- `b` is in front of `a`
    obtain ⟨us, ms, rfl⟩ := List.append_of_mem hb'
    have hr' : l.Ring head (us ++ b :: (ms ++ a :: ws)) := by simpa using hr
    rw [Equiv.swap_comm, List.append_assoc, List.cons_append,
      map_swap_split (List.nodup_cons.1 hr'.nodup).2]
    exact swap_ring' hr' (by simpa using hnode)
  · obtain ⟨ms, vs, rfl⟩ := List.append_of_mem (List.mem_of_ne_of_mem hab.symm hb')
    rw [map_swap_split hs]
    exact swap_ring hr hnode

/-- No other links change. -/
lemma swap_frame (hr : l.Ring head xs) (ha : a ∈ xs) (hb : b ∈ xs) (hx : x ∉ node :: head :: xs) :
    (swap node l a b).next x = l.next x ∧ (swap node l a b).prev x = l.prev x := by
  refine (swap_within (S := {x | x ∈ node :: head :: xs}) (fun x hx hxn => ?_)
    (by simp) (by simp [ha]) (by simp [hb])).frame x hx
  have hx' : x ∈ head :: xs := List.mem_of_ne_of_mem hxn hx
  exact ⟨List.mem_cons_of_mem node (hr.next_mem_cons hx'),
    List.mem_cons_of_mem node (hr.prev_mem_cons hx')⟩

/-- **The exchange of two nodes.**  For any two distinct nodes of a ring, neighbours or not
and in whichever order they are given, `swap` makes them trade places and leaves every other
node at its own.  Afterwards no link of the ring leads to the temporary node, `next` and
`prev` undo each other, and no links outside have changed. -/
theorem swap_trades_places (hr : l.Ring head xs) (ha : a ∈ xs) (hb : b ∈ xs) (hab : a ≠ b)
    (hnode : node ∉ head :: xs) :
    (swap node l a b).Ring head (xs.map (Equiv.swap a b)) ∧
      (∀ x ∈ head :: xs, (swap node l a b).next x ≠ node ∧ (swap node l a b).prev x ≠ node) ∧
      (∀ x ∈ head :: xs, (swap node l a b).next ((swap node l a b).prev x) = x ∧
        (swap node l a b).prev ((swap node l a b).next x) = x) ∧
      ∀ x ∉ node :: head :: xs, (swap node l a b).next x = l.next x ∧
        (swap node l a b).prev x = l.prev x := by
  have hring := swap_ring_map hr ha hb hab hnode
  have hperm := (map_swap_perm (List.nodup_cons.1 hr.nodup).2 ha hb).cons head
  have hmem : ∀ {x}, x ∈ head :: xs → x ∈ head :: xs.map (Equiv.swap a b) := fun hx =>
    hperm.mem_iff.2 hx
  refine ⟨hring, fun x hx => ⟨?_, ?_⟩, fun x hx => ⟨?_, ?_⟩, fun x hx => swap_frame hr ha hb hx⟩
  · exact fun he => hnode (hperm.mem_iff.1 (he ▸ hring.next_mem_cons (hmem hx)))
  · exact fun he => hnode (hperm.mem_iff.1 (he ▸ hring.prev_mem_cons (hmem hx)))
  · exact hring.next_prev (hmem hx)
  · exact hring.prev_next (hmem hx)

/-- Two neighbours, the second one given first. -/
theorem swap_trades_places_neighbours :
    (swap 9 (⟨fun n => (n + 1) % 4, fun n => (n + 3) % 4⟩ : Links ℕ) 2 1).Ring 0 [2, 1, 3] :=
  (swap_trades_places (show Links.Ring _ 0 [1, 2, 3] from ⟨by decide, by simp [Links.Adj]⟩)
    (by decide) (by decide) (by decide) (by decide)).1

/-! ### Bubble sort -/

omit [DecidableEq ι] in
/-- `end` is a node behind `start`. -/
lemma ne_last {y : ι} (hr : l.Ring head (us ++ x :: (y :: ws ++ vs))) : x ≠ ws.getLastD y := by
  intro he
  refine hr.notMem_rest (List.mem_cons_of_mem head (List.mem_append_right us ?_))
  rw [he]
  exact List.mem_append_left vs List.getLastD_mem_cons

/-- After an exchange of `x` with the node `y` behind it, `end` is repaired: it has moved if the
two were the last ones. -/
lemma last_repaired {y : ι} (hr : l.Ring head (us ++ y :: (x :: ws ++ vs))) :
    (if y = ws.getLastD y then l.next (ws.getLastD y) else ws.getLastD y) = ws.getLastD x := by
  cases ws with
  | nil =>
      have hy : l.next y = x := hr.next_mem
      simp [hy]
  | cons w ws =>
      have hne : y ≠ (w :: ws).getLastD x := ne_last hr
      rw [List.getLastD_cons] at hne ⊢
      rw [List.getLastD_cons, if_neg hne]

/-- The inner loop carries the node at `start` on, up to the node at `end`. -/
lemma bubblePass_ends (hr : l.Ring head (us ++ x :: (ws ++ vs)))
    (hnode : node ∉ head :: (us ++ x :: (ws ++ vs)))
    (hcmp : ∀ a ∈ x :: ws, ∀ b ∈ x :: ws, cmp a b = pure (c a b)) :
    ∃ l' start, (Comp.loop (bubblePassBody cmp node head) ⟨l, x, ws.getLastD x⟩).Ends
        (.ok ⟨l', start, (bubble c x ws).2⟩) ∧
      l'.Ring head (us ++ ((bubble c x ws).1 ++ (bubble c x ws).2 :: vs)) := by
  induction ws generalizing us x l with
  | nil =>
      refine ⟨l, x, Comp.Ends.loop_inr ?_, hr⟩
      simp [bubblePassBody, bubble]
  | cons y ws ih =>
      rw [List.cons_append] at hr hnode
      rw [List.getLastD_cons]
      have hnext : l.next x = y := hr.next_mem
      have hhead : x ≠ head := fun he => hr.head_notMem (by simp [← he])
      have hlast : x ≠ ws.getLastD y := ne_last hr
      have hcxy : cmp x y = pure (c x y) := hcmp x (by simp) y (by simp)
      by_cases h : 0 < c x y
      · have hswap : (swap node l x y).Ring head (us ++ y :: x :: (ws ++ vs)) :=
          swap_ring (show l.Ring head (us ++ x :: ([] ++ y :: (ws ++ vs))) from hr) hnode
        have hy : (swap node l x y).next y = x := hswap.next_mem
        have hring : (swap node l x y).Ring head ((us ++ [y]) ++ x :: (ws ++ vs)) := by
          simpa using hswap
        have hx : (swap node l x y).prev x = y := by simpa using hring.prev_mem
        have hlast' := last_repaired hswap
        have hperm : (head :: ((us ++ [y]) ++ x :: (ws ++ vs))).Perm
            (head :: (us ++ x :: y :: (ws ++ vs))) := by
          simpa using (List.Perm.swap x y (ws ++ vs)).append_left us
        obtain ⟨l', start, hend, hring'⟩ := ih hring (fun hm => hnode (hperm.mem_iff.1 hm))
          fun a ha b hb => hcmp a (by rcases List.mem_cons.1 ha with rfl | ha <;> simp [*]) b
            (by rcases List.mem_cons.1 hb with rfl | hb <;> simp [*])
        rw [bubble_cons_of_pos h]
        refine ⟨l', start, Comp.Ends.loop_inl (t := ⟨swap node l x y, x, ws.getLastD x⟩) ?_ hend,
          by simpa using hring'⟩
        generalize ws.getLastD y = last at hlast hlast' ⊢
        simp [bubblePassBody, hhead, hlast, hnext, hcxy, h, hx, hy, hlast']
      · have hring : l.Ring head ((us ++ [x]) ++ y :: (ws ++ vs)) := by simpa using hr
        obtain ⟨l', start, hend, hring'⟩ := ih hring (by simpa using hnode)
          fun a ha b hb => hcmp a (List.mem_cons_of_mem x ha) b (List.mem_cons_of_mem x hb)
        rw [bubble_cons_of_not_pos h]
        refine ⟨l', start, Comp.Ends.loop_inl (t := ⟨l, y, ws.getLastD y⟩) ?_ hend,
          by simpa using hring'⟩
        generalize ws.getLastD y = last at hlast ⊢
        simp [bubblePassBody, hhead, hlast, hnext, hcxy, h]

/-- The outer loop, from any point on: `vs` is in place already, and `end` is the last node
that is not. -/
lemma bubbleLoop_ends (hc : TotalPreorderOn c Set.univ) (h : Sinking c xs ws vs)
    (hr : l.Ring head (ws ++ vs)) (hnode : node ∉ head :: xs)
    (hcmp : ∀ a ∈ xs, ∀ b ∈ xs, cmp a b = pure (c a b)) :
    ∃ l' ys, (Comp.loop (bubbleSortBody cmp node head) (l, ws.getLastD head)).Ends (.ok l') ∧
      l'.Ring head ys ∧ IsStableSort c xs ys := by
  -- by induction on the number of nodes that are not in place
  induction hk : ws.length generalizing l ws vs with
  | zero =>
      obtain rfl : ws = [] := List.length_eq_zero_iff.1 hk
      refine ⟨l, _, Comp.Ends.loop_inr ?_, hr, h.isStableSort (by omega)⟩
      simp [bubbleSortBody]
  | succ k ih =>
      obtain ⟨x, ws, rfl⟩ := List.exists_cons_of_length_eq_add_one hk
      have hmem : ∀ a, a ∈ x :: (ws ++ vs) → a ∈ xs := fun a ha =>
        h.same.perm.mem_iff.1 ha
      rw [List.cons_append] at hr
      have hfirst : l.next head = x := hr.next_head
      have hlast : ws.getLastD x ≠ head := by
        intro he
        refine hr.head_notMem ?_
        rw [← he, ← List.cons_append]
        exact List.mem_append_left vs List.getLastD_mem_cons
      have hnode' : node ∉ head :: ([] ++ x :: (ws ++ vs)) :=
        fun hm => hnode (List.cons_subset_cons head (fun a ha => hmem a ha) hm)
      have hcmp' : ∀ a ∈ x :: ws, ∀ b ∈ x :: ws, cmp a b = pure (c a b) :=
        fun a ha b hb => hcmp a (hmem a (List.mem_append_left vs ha)) b
          (hmem b (List.mem_append_left vs hb))
      obtain ⟨l₁, start, hend, hr₁⟩ :=
        bubblePass_ends (show l.Ring head ([] ++ x :: (ws ++ vs)) from hr) hnode' hcmp'
      rw [List.nil_append] at hr₁
      have hprev : l₁.prev (bubble c x ws).2 = (bubble c x ws).1.getLastD head := hr₁.prev_mem
      have hlen : (bubble c x ws).1.length = k := by
        rw [bubble_length]
        simpa using hk
      obtain ⟨l', ys, hend', h'⟩ := ih (h.pass hc) hr₁ hlen
      refine ⟨l', ys, Comp.Ends.loop_inl (t := (l₁, (bubble c x ws).1.getLastD head)) ?_ hend', h'⟩
      rw [List.getLastD_cons, bubbleSortBody, if_pos hlast]
      dsimp only
      rw [hfirst]
      exact hend.bind (by simp [hprev])

/-- **Bubble sort of an intrusive list.**  On every ring whose nodes the comparison can
compare, `bubble_sort` terminates and leaves a ring of the same nodes in nondecreasing
order, those that compare equal in the order they had; the head is never compared. -/
theorem bubbleSort_ring (hr : l.Ring head xs) (hnode : node ∉ head :: xs)
    (hcmp : ∀ a ∈ xs, ∀ b ∈ xs, cmp a b = pure (c a b)) (hc : TotalPreorderOn c Set.univ) :
    ∃ l' ys, (bubbleSort cmp node head l).Ends (.ok l') ∧ l'.Ring head ys ∧
      IsStableSort c xs ys := by
  have hr' : l.Ring head (xs ++ []) := by simpa using hr
  rw [bubbleSort, hr.prev_head]
  exact bubbleLoop_ends hc (Sinking.start c xs) hr' hnode hcmp

/-- Three nodes compared by their tens, with a comparison that faults on the head. -/
theorem bubbleSort_ring_tens : ∃ l' ys,
    (bubbleSort (fun a b : ℕ => if a = 0 ∨ b = 0 then Comp.fault () else
        (pure (((a / 10 : ℕ) : ℤ) - ((b / 10 : ℕ) : ℤ)) : Comp Unit ℤ)) 99 0
      ⟨fun n => if n = 0 then 21 else if n = 21 then 15 else if n = 15 then 20 else 0,
        fun n => if n = 0 then 20 else if n = 20 then 15 else if n = 15 then 21 else 0⟩).Ends
      (.ok l') ∧
    l'.Ring 0 ys ∧ IsStableSort (fun a b => ((a / 10 : ℕ) : ℤ) - ((b / 10 : ℕ) : ℤ))
      [21, 15, 20] ys :=
  bubbleSort_ring (c := fun a b : ℕ => ((a / 10 : ℕ) : ℤ) - ((b / 10 : ℕ) : ℤ))
    (show Links.Ring _ 0 [21, 15, 20] from ⟨by decide, by simp [Links.Adj]⟩) (by decide)
    (fun a ha b hb => if_neg (by
      rintro (rfl | rfl)
      · exact absurd ha (by decide)
      · exact absurd hb (by decide)))
    ⟨fun a _ b _ => by omega, fun a _ b _ d _ => by omega⟩

/-! ### Selection sort -/

/-- The inner loop finds a least one of the nodes from `j` on and `min`. -/
lemma selectMin_ends (hc : TotalPreorderOn c Set.univ) (hr : l.Ring head (us ++ ws)) (hx : x ∈ us)
    (hcmp : ∀ a ∈ us ++ ws, ∀ b ∈ us ++ ws, cmp a b = pure (c a b)) :
    ∃ m, (Comp.loop (selectMinBody cmp head l) (ws.headD head, x)).Ends (.ok m) ∧
      m ∈ x :: ws ∧ ∀ w ∈ x :: ws, c m w ≤ 0 := by
  induction ws generalizing us x with
  | nil =>
      refine ⟨x, Comp.Ends.loop_inr ?_, by simp, by simpa using hc.refl x⟩
      simp [selectMinBody]
  | cons j ws ih =>
      have hhead : j ≠ head := fun he => hr.head_notMem (by simp [← he])
      have hnext : l.next j = ws.headD head := hr.next_mem
      have hcjx : cmp j x = pure (c j x) := hcmp j (by simp) x (List.mem_append_left _ hx)
      have hr' : l.Ring head ((us ++ [j]) ++ ws) := by simpa using hr
      have hcmp' : ∀ a ∈ (us ++ [j]) ++ ws, ∀ b ∈ (us ++ [j]) ++ ws, cmp a b = pure (c a b) := by
        simpa using hcmp
      by_cases h : c j x < 0
      · obtain ⟨m, hend, hm, hle⟩ := ih hr' (x := j) (by simp) hcmp'
        refine ⟨m, Comp.Ends.loop_inl (t := (ws.headD head, j)) ?_ hend,
          List.mem_cons_of_mem x hm, fun w hw => ?_⟩
        · simp [selectMinBody, hhead, hcjx, hnext, h]
        · rcases List.mem_cons.1 hw with rfl | hw
          · exact hc.trans m trivial j trivial w trivial (hle j (by simp)) h.le
          · exact hle w hw
      · obtain ⟨m, hend, hm, hle⟩ := ih hr' (x := x) (by simp [hx]) hcmp'
        have hxj : c x j ≤ 0 := (hc.nonneg_iff trivial trivial).1 (not_lt.1 h)
        refine ⟨m, Comp.Ends.loop_inl (t := (ws.headD head, x)) ?_ hend, ?_, fun w hw => ?_⟩
        · simp [selectMinBody, hhead, hcjx, hnext, h]
        · rcases List.mem_cons.1 hm with rfl | hm
          · simp
          · simp [hm]
        · rcases List.mem_cons.1 hw with rfl | hw
          · exact hle w (by simp)
          · rcases List.mem_cons.1 hw with rfl | hw
            · exact hc.trans m trivial x trivial w trivial (hle x (by simp)) hxj
            · exact hle w (by simp [hw])

/-- A round of the outer loop brings a least node of what is left to its front, and `i`
behind it. -/
lemma selectSortBody_ends (hc : TotalPreorderOn c Set.univ) (hr : l.Ring head (us ++ x :: ws))
    (hne : ws ≠ []) (hnode : node ∉ head :: (us ++ x :: ws))
    (hcmp : ∀ a ∈ us ++ x :: ws, ∀ b ∈ us ++ x :: ws, cmp a b = pure (c a b)) :
    ∃ l' m vs, (selectSortBody cmp node head (l, x)).Ends (.ok (.inl (l', vs.headD head))) ∧
      l'.Ring head (us ++ m :: vs) ∧ (m :: vs).Perm (x :: ws) ∧ ∀ w ∈ vs, c m w ≤ 0 := by
  have hr' : l.Ring head ((us ++ [x]) ++ ws) := by simpa using hr
  have hnext : l.next x = ws.headD head := hr.next_mem
  -- `i` is not the last node
  have hlast : x ≠ l.prev head := by
    obtain rfl | ⟨ws, z, rfl⟩ := List.eq_nil_or_concat' ws
    · exact absurd rfl hne
    · have hz : l.prev head = z := by
        rw [hr.prev_head, ← List.cons_append, ← List.append_assoc, List.getLastD_concat]
      rintro rfl
      refine hr.notMem_rest ?_
      simp [hz]
  have hcmp' : ∀ a ∈ (us ++ [x]) ++ ws, ∀ b ∈ (us ++ [x]) ++ ws, cmp a b = pure (c a b) := by
    simpa using hcmp
  obtain ⟨m, hmin, hm, hle⟩ := selectMin_ends hc hr' (x := x) (by simp) hcmp'
  by_cases hmx : m = x
  · subst hmx
    refine ⟨l, m, ws, ?_, hr, List.Perm.refl _, fun w hw => hle w (by simp [hw])⟩
    rw [selectSortBody, if_pos hlast]
    dsimp only
    rw [hnext]
    exact hmin.bind (by simp)
  · obtain ⟨ms, vs, rfl⟩ := List.append_of_mem (List.mem_of_ne_of_mem hmx hm)
    have hswap : (swap node l m x).Ring head (us ++ m :: (ms ++ x :: vs)) := swap_ring' hr hnode
    have hnext' : (swap node l m x).next m = (ms ++ x :: vs).headD head := hswap.next_mem
    refine ⟨swap node l m x, m, ms ++ x :: vs, ?_, hswap, exchange_perm x ms m vs,
      fun w hw => hle w ?_⟩
    · rw [selectSortBody, if_pos hlast]
      dsimp only
      rw [hnext]
      refine hmin.bind ?_
      rw [if_pos hmx, hnext']
      simp
    · exact (exchange_perm x ms m vs).mem_iff.1 (List.mem_cons_of_mem m hw)

/-- The outer loop, from any point on: `us` is in place already, and something is left
unless the list is empty. -/
lemma selectLoop_ends (hc : TotalPreorderOn c Set.univ) (h : Selecting c xs us ws)
    (hr : l.Ring head (us ++ ws)) (hnode : node ∉ head :: xs) (hws : ws = [] → us = [])
    (hcmp : ∀ a ∈ xs, ∀ b ∈ xs, cmp a b = pure (c a b)) :
    ∃ l' ys, (Comp.loop (selectSortBody cmp node head) (l, ws.headD head)).Ends (.ok l') ∧
      l'.Ring head ys ∧ ys.Perm xs ∧ Ordered c ys := by
  -- by induction on the number of nodes that are left
  induction hk : ws.length generalizing l us ws with
  | zero =>
      obtain rfl : ws = [] := List.length_eq_zero_iff.1 hk
      obtain rfl : us = [] := hws rfl
      have hprev : l.prev head = head := hr.prev_head
      refine ⟨l, [], Comp.Ends.loop_inr ?_, hr, h.done (by simp)⟩
      simp [selectSortBody, hprev]
  | succ k ih =>
      obtain ⟨x, ws, rfl⟩ := List.exists_cons_of_length_eq_add_one hk
      rw [List.headD_cons]
      by_cases hone : ws = []
      · subst hone
        have hprev : l.prev head = x := by simpa using hr.prev_head
        refine ⟨l, us ++ [x], Comp.Ends.loop_inr ?_, hr, h.done (by simp)⟩
        simp [selectSortBody, hprev]
      · have hmem : ∀ a, a ∈ us ++ x :: ws → a ∈ xs := fun a ha => h.perm.mem_iff.1 ha
        obtain ⟨l₁, m, vs, hround, hr₁, hperm, hle⟩ := selectSortBody_ends hc hr hone
          (fun hm => hnode (List.cons_subset_cons head (fun a ha => hmem a ha) hm))
          fun a ha b hb => hcmp a (hmem a ha) b (hmem b hb)
        have hlen : vs.length = ws.length := by simpa using hperm.length_eq
        have hvs : vs ≠ [] := by
          rintro rfl
          exact hone (List.length_eq_zero_iff.1 hlen.symm)
        obtain ⟨l', ys, hend, h'⟩ := ih ((h.perm_right hperm).take hle) (by simpa using hr₁)
          (fun hnil => absurd hnil hvs) (by simpa [hlen] using hk)
        exact ⟨l', ys, hround.loop_inl hend, h'⟩

/-- **Selection sort of an intrusive list.**  On every ring whose nodes the comparison can
compare, `select_sort` terminates and leaves a ring of the same nodes in nondecreasing
order; the head is never compared. -/
theorem selectSort_ring (hr : l.Ring head xs) (hnode : node ∉ head :: xs)
    (hcmp : ∀ a ∈ xs, ∀ b ∈ xs, cmp a b = pure (c a b)) (hc : TotalPreorderOn c Set.univ) :
    ∃ l' ys, (selectSort cmp node head l).Ends (.ok l') ∧ l'.Ring head ys ∧ ys.Perm xs ∧
      Ordered c ys := by
  rw [selectSort, hr.next_head]
  exact selectLoop_ends hc (Selecting.start c xs) hr hnode (fun _ => rfl) hcmp

/-- Three nodes compared by their tens, with a comparison that faults on the head. -/
theorem selectSort_ring_tens : ∃ l' ys,
    (selectSort (fun a b : ℕ => if a = 0 ∨ b = 0 then Comp.fault () else
        (pure (((a / 10 : ℕ) : ℤ) - ((b / 10 : ℕ) : ℤ)) : Comp Unit ℤ)) 99 0
      ⟨fun n => if n = 0 then 21 else if n = 21 then 15 else if n = 15 then 20 else 0,
        fun n => if n = 0 then 20 else if n = 20 then 15 else if n = 15 then 21 else 0⟩).Ends
      (.ok l') ∧
    l'.Ring 0 ys ∧ ys.Perm [21, 15, 20] ∧
      Ordered (fun a b => ((a / 10 : ℕ) : ℤ) - ((b / 10 : ℕ) : ℤ)) ys :=
  selectSort_ring (c := fun a b : ℕ => ((a / 10 : ℕ) : ℤ) - ((b / 10 : ℕ) : ℤ))
    (show Links.Ring _ 0 [21, 15, 20] from ⟨by decide, by simp [Links.Adj]⟩) (by decide)
    (fun a ha b hb => if_neg (by
      rintro (rfl | rfl)
      · exact absurd ha (by decide)
      · exact absurd hb (by decide)))
    ⟨fun a _ b _ => by omega, fun a _ b _ d _ => by omega⟩

end KernelList

end DemoClass
