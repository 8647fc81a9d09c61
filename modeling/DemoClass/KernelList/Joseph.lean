import DemoClass.KernelList.ForEach
import DemoClass.Lib.Josephus
import Mathlib.Algebra.Order.Ring.Nat

/-!
# Elimination in a circle (`joesph.c`)

`joesph_loop` walks over the list again and again, counts the nodes it comes to with one
counter, and deletes a node whenever the counter is a multiple of `step`.  It looks only
between two walks whether a single node is left.

During a walk the list is `us ++ ys`, with `ys` still to come; the circle, from the next
node to be counted on, is then `ys ++ us`, with `n % step` nodes counted since the last
deletion (`Counted`).  A walk over two nodes or more never deletes them all: the node
after a deleted one is counted with `1`, and `step` is at least `2` (`Counted.spare`).
-/

namespace DemoClass

namespace Links

variable {ι : Type} [DecidableEq ι]

/-- The division by `step` traps. -/
inductive JosephFault where
  | divByZero
deriving DecidableEq, Repr

/-- The links, the counter `n`, and the nodes deleted so far. -/
structure Joseph (ι : Type) where
  links : Links ι
  n : ℕ
  del : List ι

/-- `--start` in `size_t` -/
def startPred (start : ℕ) : ℕ := if start = 0 then 2 ^ 64 - 1 else start - 1

/-- The statement under `list_for_each` in `joesph_loop`. -/
def startBody (cur : ι) (start : ℕ) : Comp JosephFault (ℕ ⊕ ι) :=
  if startPred start = 0 then pure (.inr cur) else pure (.inl (startPred start))

/-- The statement under `list_for_each_continue` in `joesph_loop`. -/
def countBody (step : ℕ) (cur : ι) (s : Joseph ι) : Comp JosephFault (Joseph ι ⊕ Empty) :=
  let n := (s.n + 1) % 2 ^ 64
  if step = 0 then Comp.fault .divByZero
  else if n % step = 0 then
    pure (.inl { links := s.links.listDel cur, n := n, del := s.del ++ [cur] })
  else pure (.inl { s with n := n })

/-- One round of the second loop of `joesph_loop`, which leaves `cur` at the head. -/
def joesphBody (head : ι) (step : ℕ) (w : Joseph ι × ι) :
    Comp JosephFault ((Joseph ι × ι) ⊕ Joseph ι) :=
  if w.1.links.next (w.1.links.next head) ≠ head then do
    match ← listForEachContinue Joseph.links (countBody step) w.2 head w.1 with
    | .inl s => pure (.inl (s, head))
    | .inr e => nomatch e
  else pure (.inr w.1)

/-- `joesph_loop`: the state at the end, and the node that is printed as the last one. -/
def joesphLoop (head : ι) (start step : ℕ) (l : Links ι) : Comp JosephFault (Joseph ι × ι) := do
  let cur ← match ← listForEach (fun _ => l) startBody head start with
    | .inl _ => pure head
    | .inr cur => pure cur
  let s ← Comp.loop (joesphBody head step) (⟨l, 0, []⟩, l.prev cur)
  pure (s, s.links.next head)

/-! ### The first node -/

variable {l : Links ι} {head x : ι} {xs us ys : List ι} {start step N : ℕ} {s : Joseph ι}

omit [DecidableEq ι] in
lemma startPred_succ (n : ℕ) : startPred (n + 1) = n := by simp [startPred]

/-- The first loop leaves at the `start`-th node. -/
lemma start_ends (hr : l.Ring head (xs ++ us ++ x :: ys)) :
    (forEachFrom (fun _ => l.next) startBody head ((us ++ x :: ys).headD head)
      (us.length + 1)).Ends (.ok (.inr x)) := by
  induction us generalizing xs with
  | nil =>
      have hne : x ≠ head := by
        rintro rfl
        exact hr.head_notMem (by simp)
      refine forEachFrom_inr hne ?_
      simp [startBody, startPred_succ]
  | cons u us ih =>
      have hne : u ≠ head := by
        rintro rfl
        exact hr.head_notMem (by simp)
      have hr' : l.Ring head ((xs ++ [u]) ++ us ++ x :: ys) := by simpa using hr
      have hnext : l.next u = (us ++ x :: ys).headD head :=
        Ring.next_mem (show l.Ring head (xs ++ u :: (us ++ x :: ys)) by simpa using hr)
      have hb : (startBody u ((u :: us).length + 1)).Ends (.ok (.inl (us.length + 1))) := by
        simp [startBody, startPred_succ]
      refine forEachFrom_inl hne hb ?_
      show (forEachFrom (fun _ => l.next) startBody head (l.next u) _).Ends _
      rw [hnext]
      exact ih hr'

omit [DecidableEq ι] in
/-- The nodes before the `start`-th one, and those from it on. -/
lemma exists_start (hstart : 1 ≤ start) (hle : start ≤ xs.length) :
    ∃ us x ys, xs = us ++ x :: ys ∧ start = us.length + 1 := by
  obtain ⟨k, rfl⟩ : ∃ k, start = k + 1 := ⟨start - 1, by omega⟩
  refine ⟨xs.take k, xs[k], xs.drop (k + 1), ?_, ?_⟩
  · rw [List.getElem_cons_drop, List.take_append_drop]
  · rw [List.length_take]
    omega

/-- The second loop begins before the `start`-th node. -/
lemma joesphLoop_of_loop (hr : l.Ring head (us ++ x :: ys))
    (h : (Comp.loop (joesphBody head step) (⟨l, 0, []⟩, l.prev x)).Ends (.ok s)) :
    (joesphLoop head (us.length + 1) step l).Ends (.ok (s, s.links.next head)) := by
  have hfirst : (listForEach (fun _ => l) startBody head (us.length + 1)).Ends (.ok (.inr x)) := by
    rw [listForEach, hr.next_head]
    exact start_ends (show l.Ring head ([] ++ us ++ x :: ys) by simpa using hr)
  refine hfirst.bind ?_
  exact h.bind (by simp)

/-! ### Counting -/

/-- Counting one more either stays below the step or completes it. -/
lemma count_cases (hstep : 0 < step) (n : ℕ) :
    (n % step + 1 < step ∧ (n + 1) % step = n % step + 1 ∧ (n + 1) / step = n / step) ∨
      (n % step + 1 = step ∧ (n + 1) % step = 0 ∧ (n + 1) / step = n / step + 1) := by
  have hn := Nat.div_add_mod n step
  have hlt := Nat.mod_lt n hstep
  by_cases h : n % step + 1 < step
  · have hsucc : n + 1 = step * (n / step) + (n % step + 1) := by omega
    refine Or.inl ⟨h, ?_, ?_⟩
    · rw [hsucc, Nat.mul_add_mod, Nat.mod_eq_of_lt h]
    · rw [hsucc, Nat.mul_add_div hstep, Nat.div_eq_of_lt h]
      omega
  · have hsucc : n + 1 = step * (n / step + 1) := by
      rw [Nat.mul_add, Nat.mul_one]
      omega
    refine Or.inr ⟨by omega, ?_, ?_⟩
    · rw [hsucc, Nat.mul_mod_right]
    · rw [hsucc, Nat.mul_div_cancel_left _ hstep]

/-- During a walk over a list that had `N` nodes: the nodes `us` are behind `cur`, the
nodes `ys` still to come, and `order` is the order of the whole process. -/
structure Counted (head : ι) (step N : ℕ) (order us ys : List ι) (s : Joseph ι) : Prop where
  ring : s.links.Ring head (us ++ ys)
  order_eq : order = s.del ++ josephusFrom step (s.n % step) (ys ++ us)
  del_length : s.del.length = s.n / step
  total : s.del.length + (us.length + ys.length) = N
  spare : us ≠ [] ∨ 2 ≤ ys.length ∨ ys ≠ [] ∧ s.n % step = 0

variable {order : List ι}

omit [DecidableEq ι] in
/-- The counter stays below the number at which the last node would be deleted. -/
lemma Counted.lt (h : Counted head step N order us ys s) (hstep : 2 ≤ step) : s.n < step * N := by
  have htotal := h.total
  have hpos : 0 < us.length + ys.length := by
    rcases h.spare with hus | hys | ⟨hys, -⟩
    · have := List.length_pos_iff.2 hus
      omega
    · omega
    · have := List.length_pos_iff.2 hys
      omega
  rw [Nat.mul_comm]
  refine (Nat.div_lt_iff_lt_mul (by omega)).1 ?_
  rw [← h.del_length]
  omega

/-- Deleting a node leaves its own links. -/
lemma listDel_next_self (hr : l.Ring head (us ++ x :: ys)) : (l.listDel x).next x = l.next x := by
  have hne : x ≠ l.prev x := by
    rw [Ring.prev_mem hr]
    intro he
    have hnd : (head :: us ++ x :: ys).Nodup := hr.nodup
    refine (List.nodup_append.1 hnd).2.2 x ?_ x (by simp) rfl
    cases us using List.reverseRecOn with
    | nil => simpa using he
    | append_singleton us u => simp [show x = u by simpa using he]
  simp [listDel, hne]

/-- What the second loop does with the next node keeps the process. -/
lemma Counted.count (h : Counted head step N order us (x :: ys) s) (hstep : 2 ≤ step)
    (hN : step * N < 2 ^ 64) :
    ∃ us' s', (countBody step x s).Ends (.ok (.inl s')) ∧ s'.links.next x = ys.headD head ∧
      s'.n = s.n + 1 ∧ Counted head step N order us' ys s' := by
  have hlt := h.lt hstep
  have hmod : (s.n + 1) % 2 ^ 64 = s.n + 1 := Nat.mod_eq_of_lt (by omega)
  have hnext : s.links.next x = ys.headD head := Ring.next_mem h.ring
  have htotal := h.total
  rw [List.length_cons] at htotal
  rcases count_cases (show 0 < step by omega) s.n with ⟨hj, hn, hdiv⟩ | ⟨hj, hn, hdiv⟩
  · -- the node stays
    refine ⟨us ++ [x], { s with n := s.n + 1 }, ?_, hnext, rfl, ?_⟩
    · rw [countBody, hmod, if_neg (show step ≠ 0 by omega),
        if_neg (show (s.n + 1) % step ≠ 0 by omega)]
      simp
    · refine ⟨by simpa using h.ring, ?_, ?_, ?_, Or.inl (by simp)⟩
      · show order = s.del ++ josephusFrom step ((s.n + 1) % step) (ys ++ (us ++ [x]))
        rw [h.order_eq, hn, List.cons_append, josephusFrom_count hj, List.append_assoc]
      · show s.del.length = (s.n + 1) / step
        rw [h.del_length, hdiv]
      · show s.del.length + ((us ++ [x]).length + ys.length) = N
        rw [List.length_append, List.length_singleton]
        omega
  · -- the node is deleted
    refine ⟨us, ⟨s.links.listDel x, s.n + 1, s.del ++ [x]⟩, ?_, ?_, rfl, ?_⟩
    · rw [countBody, hmod, if_neg (show step ≠ 0 by omega), if_pos hn]
      simp
    · show (s.links.listDel x).next x = ys.headD head
      rw [listDel_next_self h.ring, hnext]
    · refine ⟨h.ring.listDel, ?_, ?_, ?_, ?_⟩
      · show order = (s.del ++ [x]) ++ josephusFrom step ((s.n + 1) % step) (ys ++ us)
        rw [h.order_eq, hn, List.cons_append, josephusFrom_leave hj, List.append_assoc]
        rfl
      · show (s.del ++ [x]).length = (s.n + 1) / step
        rw [List.length_append, h.del_length, hdiv, List.length_singleton]
      · show (s.del ++ [x]).length + (us.length + ys.length) = N
        rw [List.length_append, List.length_singleton]
        omega
      · show us ≠ [] ∨ 2 ≤ ys.length ∨ ys ≠ [] ∧ (s.n + 1) % step = 0
        rcases h.spare with hus | hys | ⟨-, hzero⟩
        · exact Or.inl hus
        · refine Or.inr (Or.inr ⟨?_, hn⟩)
          rintro rfl
          simp at hys
        · -- the node after a deleted one is counted with `1`
          omega

/-- A walk over the nodes to come. -/
lemma Counted.walk_ends (h : Counted head step N order us ys s) (hstep : 2 ≤ step)
    (hN : step * N < 2 ^ 64) :
    ∃ us' s', (forEachFrom (fun s => (Joseph.links s).next) (countBody step) head (ys.headD head)
        s).Ends (.ok (.inl s')) ∧
      s'.n = s.n + ys.length ∧ Counted head step N order us' [] s' := by
  obtain ⟨s', hends, us', hn, hc⟩ : ∃ s', (forEachFrom (fun s => (Joseph.links s).next)
      (countBody step) head (ys.headD head) s).Ends (.ok (.inl s')) ∧
        ∃ us', s'.n + 0 = s.n + ys.length ∧ Counted head step N order us' [] s' := by
    refine forEachFrom_ends (fun zs t => ∃ vs, t.n + zs.length = s.n + ys.length ∧
      Counted head step N order vs zs t) ?_ ?_ ⟨us, rfl, h⟩
    · rintro x zs t ⟨vs, hn, hc⟩
      obtain ⟨vs', t', hbody, hnext, hn', hc'⟩ := hc.count hstep hN
      refine ⟨t', hbody, hnext, vs', ?_, hc'⟩
      rw [List.length_cons] at hn
      omega
    · exact fun hmem => h.ring.head_notMem (List.mem_append_right us hmem)
  exact ⟨us', s', hends, hn, hc⟩

/-! ### Walk after walk -/

omit [DecidableEq ι] in
/-- The test between two walks. -/
lemma next_next_eq_head_iff (hr : l.Ring head xs) (hne : xs ≠ []) :
    l.next (l.next head) = head ↔ ∃ y, xs = [y] := by
  rcases xs with _ | ⟨y, _ | ⟨z, zs⟩⟩
  · exact absurd rfl hne
  · have hy : l.next y = head := Ring.next_mem (show l.Ring head ([] ++ y :: []) from hr)
    simp [hr.next_head, hy]
  · have hy : l.next y = z := Ring.next_mem (show l.Ring head ([] ++ y :: z :: zs) from hr)
    have hz : z ≠ head := by
      rintro rfl
      exact hr.head_notMem (by simp)
    simp [hr.next_head, hy, hz]

omit [DecidableEq ι] in
lemma next_next_ne_head (hr : l.Ring head xs) (htwo : 2 ≤ xs.length) :
    l.next (l.next head) ≠ head := by
  have hne : xs ≠ [] := by
    rintro rfl
    simp at htwo
  intro he
  obtain ⟨y, rfl⟩ := (next_next_eq_head_iff hr hne).1 he
  simp at htwo

/-- With two nodes or more there is another walk. -/
lemma Counted.body_ends {cur : ι} (h : Counted head step N order us ys s) (hstep : 2 ≤ step)
    (hN : step * N < 2 ^ 64) (hcur : s.links.next cur = ys.headD head)
    (htwo : 2 ≤ us.length + ys.length) :
    ∃ us' s', (joesphBody head step (s, cur)).Ends (.ok (.inl (s', head))) ∧
      s'.n = s.n + ys.length ∧ Counted head step N order us' [] s' := by
  obtain ⟨us', s', hends, hn, hc⟩ := h.walk_ends hstep hN
  refine ⟨us', s', ?_, hn, hc⟩
  have htest := next_next_ne_head h.ring (by simpa using htwo)
  have hwalk : (listForEachContinue Joseph.links (countBody step) cur head s).Ends
      (.ok (.inl s')) := by
    rw [listForEachContinue, hcur]
    exact hends
  rw [joesphBody, if_pos htest]
  exact hwalk.bind (by simp)

/-- From the head on, the loop goes on until the survivor is left. -/
lemma Counted.loop_ends (h : Counted head step N order us [] s) (hstep : 2 ≤ step)
    (hN : step * N < 2 ^ 64) :
    ∃ s' y, (Comp.loop (joesphBody head step) (s, head)).Ends (.ok s') ∧
      s'.links.Ring head [y] ∧ order = s'.del ++ [y] := by
  -- the counter grows from walk to walk, and stays below `step * N`
  induction hk : step * N - s.n using Nat.strong_induction_on generalizing us s with
  | _ k ih =>
      have hus : us ≠ [] := by
        rcases h.spare with hus | hys | ⟨hys, -⟩
        · exact hus
        · simp at hys
        · exact absurd rfl hys
      have hr : s.links.Ring head us := by simpa using h.ring
      have horder : order = s.del ++ josephusFrom step (s.n % step) us := by
        simpa using h.order_eq
      by_cases hone : ∃ y, us = [y]
      · obtain ⟨y, rfl⟩ := hone
        refine ⟨s, y, Comp.Ends.loop_inr ?_, hr, ?_⟩
        · have htest := (next_next_eq_head_iff hr hus).2 ⟨y, rfl⟩
          simp [joesphBody, htest]
        · rw [horder, josephusFrom_singleton]
      · have htwo : 2 ≤ us.length := by
          rcases us with _ | ⟨y, _ | ⟨z, zs⟩⟩
          · exact absurd rfl hus
          · exact absurd ⟨y, rfl⟩ hone
          · simp
        have hnew : Counted head step N order [] us s :=
          ⟨hr, by simpa using horder, h.del_length, by simpa using h.total, Or.inr (Or.inl htwo)⟩
        obtain ⟨us', s', hb, hn, hc⟩ := hnew.body_ends hstep hN hr.next_head (by simpa using htwo)
        have hlt := hc.lt hstep
        obtain ⟨t, y, ht, hring, he⟩ := ih (step * N - s'.n) (by omega) hc rfl
        exact ⟨t, y, hb.loop_inl ht, hring, he⟩

omit [DecidableEq ι] in
/-- Before the first walk the nodes from the `start`-th one on are still to come. -/
lemma Counted.first (hr : l.Ring head (us ++ x :: ys)) (htwo : 2 ≤ us.length + (x :: ys).length) :
    Counted head step (us ++ x :: ys).length (josephus step (x :: ys ++ us)) us (x :: ys)
      ⟨l, 0, []⟩ := by
  refine ⟨hr, ?_, ?_, ?_, ?_⟩
  · simp [josephus]
  · simp
  · simp
  · rcases us with _ | ⟨u, us⟩
    · exact Or.inr (Or.inl (by simpa using htwo))
    · exact Or.inl (by simp)

/-- The second loop, from the `start`-th node on. -/
lemma joesphBody_loop_ends (hr : l.Ring head (us ++ x :: ys)) (hstep : 2 ≤ step)
    (hlt : step * (us ++ x :: ys).length < 2 ^ 64) :
    ∃ s y, (Comp.loop (joesphBody head step) (⟨l, 0, []⟩, l.prev x)).Ends (.ok s) ∧
      s.links.Ring head [y] ∧ josephus step (x :: ys ++ us) = s.del ++ [y] := by
  have hcur : l.next (l.prev x) = x := hr.next_prev (by simp)
  by_cases htwo : 2 ≤ us.length + (x :: ys).length
  · obtain ⟨us', s', hb, -, hc⟩ := (Counted.first hr htwo).body_ends hstep hlt hcur htwo
    obtain ⟨t, y, ht, hring, horder⟩ := hc.loop_ends hstep hlt
    exact ⟨t, y, hb.loop_inl ht, hring, horder⟩
  · -- a single node
    rw [List.length_cons] at htwo
    obtain rfl : us = [] := List.length_eq_zero_iff.1 (by omega)
    obtain rfl : ys = [] := List.length_eq_zero_iff.1 (by omega)
    refine ⟨⟨l, 0, []⟩, x, Comp.Ends.loop_inr ?_, hr, ?_⟩
    · have htest := (next_next_eq_head_iff hr (by simp)).2 ⟨x, rfl⟩
      simp [joesphBody, htest]
    · rw [josephus, List.append_nil, josephusFrom_singleton, List.nil_append]

/-- `joesph_loop` ends, deletes the nodes in the order of the Josephus process that begins
to count at the `start`-th node, and leaves the survivor. -/
theorem joesphLoop_ends (hr : l.Ring head xs) (hstart : 1 ≤ start) (hle : start ≤ xs.length)
    (hstep : 2 ≤ step) (hlt : step * xs.length < 2 ^ 64) :
    ∃ s y, (joesphLoop head start step l).Ends (.ok (s, y)) ∧
      josephus step (xs.rotate (start - 1)) = s.del ++ [y] ∧ s.links.Ring head [y] := by
  obtain ⟨us, x, ys, rfl, rfl⟩ := exists_start hstart hle
  have hrot : (us ++ x :: ys).rotate (us.length + 1 - 1) = x :: ys ++ us := by
    rw [Nat.add_sub_cancel, List.rotate_append_length_eq]
  rw [hrot]
  obtain ⟨s, y, hends, hring, horder⟩ := joesphBody_loop_ends hr hstep hlt
  refine ⟨s, y, ?_, horder, hring⟩
  have hy : s.links.next head = y := hring.next_head
  rw [← hy]
  exact joesphLoop_of_loop hr hends

/-- Three nodes after the head `0`, every second one deleted from the second one on. -/
theorem joesphLoop_ends_three :
    ∃ s y, (joesphLoop 0 2 2 ⟨fun i => (i + 1) % 4, fun i => (i + 3) % 4⟩ :
        Comp JosephFault (Joseph ℕ × ℕ)).Ends (.ok (s, y)) ∧
      josephus 2 ([1, 2, 3].rotate (2 - 1)) = s.del ++ [y] ∧ s.links.Ring 0 [y] :=
  joesphLoop_ends ⟨by decide, by simp [Adj]⟩ (by decide) (by decide) (by decide) (by decide)

end Links

end DemoClass
