import DemoClass.KernelList.Joseph

/-!
# Whether a node is left (`joesph.c`)

`joesph_loop` tests between two walks whether a single node is left, so a walk over two
nodes or more may delete them all.  With `step = 1` it does, unless the first walk, which
begins at the `start`-th node, leaves one node behind.  With a greater step it takes two
multiples of `step` in a row, and the only ones are `2 ^ 64 - 1` and the `0` to which the
counter then wraps: a walk over two nodes that begins with the counter at `2 ^ 64 - 2`.
How many nodes and which counter a walk begins with depends on numbers only (`walks`).
-/

namespace DemoClass

namespace Links

variable {ι : Type}

/-- `++n` in `size_t` -/
def countSucc (n : ℕ) : ℕ := (n + 1) % 2 ^ 64

/-- The nodes that a walk over `ys` leaves, from the counter `n` on. -/
def kept (step : ℕ) : ℕ → List ι → List ι
  | _, [] => []
  | n, x :: ys =>
    if countSucc n % step = 0 then kept step (countSucc n) ys
    else x :: kept step (countSucc n) ys

/-- How many of `m` nodes a walk leaves, from the counter `n` on. -/
def keptCount (step : ℕ) : ℕ → ℕ → ℕ
  | _, 0 => 0
  | n, m + 1 =>
    if countSucc n % step = 0 then keptCount step (countSucc n) m
    else keptCount step (countSucc n) m + 1

/-- What a walk makes of the number of nodes and the counter. -/
def walk (step : ℕ) (w : ℕ × ℕ) : ℕ × ℕ := (keptCount step w.2 w.1, (w.2 + w.1) % 2 ^ 64)

/-- The number of nodes and the counter after the first walk, which goes from the `start`-th
of `n` nodes on, and after `k` more. -/
def walks (step start n k : ℕ) : ℕ × ℕ :=
  (walk step)^[k] (start - 1 + keptCount step 0 (n - (start - 1)), (n - (start - 1)) % 2 ^ 64)

/-- A walk over two nodes deletes one with the counter at `2 ^ 64 - 1` and the other one with
the counter at `0`. -/
def DeletesBoth (step : ℕ) (w : ℕ × ℕ) : Prop := w = (2, 2 ^ 64 - 2) ∧ step ∣ 2 ^ 64 - 1

/-- Of `n` nodes one is left, when every `step`-th is deleted from the `start`-th on. -/
def SparesOne (step start n : ℕ) : Prop :=
  n = 1 ∨ step = 1 ∧ start = 2 ∨ 2 ≤ step ∧ ∀ k, ¬ DeletesBoth step (walks step start n k)

/-- `joesph_loop` ends with one node in the list, and prints that one. -/
def LeavesOne [DecidableEq ι] (head : ι) (start step : ℕ) (l : Links ι) (xs : List ι) : Prop :=
  ∃ s y, (joesphLoop head start step l).Ends (.ok (s, y)) ∧ y ∈ xs ∧ s.links.Ring head [y]

variable {start step m n : ℕ} {w : ℕ × ℕ} {xs us ys : List ι}

/-! ### One walk, in numbers -/

lemma countSucc_lt (n : ℕ) : countSucc n < 2 ^ 64 := Nat.mod_lt _ (by omega)

lemma length_kept (step n : ℕ) (ys : List ι) :
    (kept step n ys).length = keptCount step n ys.length := by
  induction ys generalizing n with
  | nil => rfl
  | cons x ys ih =>
      rw [kept, List.length_cons, keptCount]
      split_ifs
      · exact ih (countSucc n)
      · rw [List.length_cons, ih]

lemma kept_sublist (step n : ℕ) (ys : List ι) : (kept step n ys).Sublist ys := by
  induction ys generalizing n with
  | nil => exact List.Sublist.refl []
  | cons x ys ih =>
      rw [kept]
      split_ifs
      · exact (ih (countSucc n)).cons x
      · exact (ih (countSucc n)).cons_cons x

lemma keptCount_le (step n m : ℕ) : keptCount step n m ≤ m := by
  induction m generalizing n with
  | zero => exact Nat.le_refl 0
  | succ m ih =>
      have h := ih (countSucc n)
      rw [keptCount]
      split_ifs <;> omega

/-- A walk in which the counter wraps deletes a node. -/
lemma keptCount_lt (hn : n < 2 ^ 64) (hwrap : 2 ^ 64 ≤ n + m) : keptCount step n m < m := by
  induction m generalizing n with
  | zero => omega
  | succ m ih =>
      rw [keptCount]
      by_cases hlast : n = 2 ^ 64 - 1
      · -- the counter is now `0`
        have hzero : countSucc n = 0 := by
          unfold countSucc
          omega
        have hle := keptCount_le step 0 m
        rw [hzero, Nat.zero_mod, if_pos rfl]
        omega
      · have hsucc : countSucc n = n + 1 := Nat.mod_eq_of_lt (by omega)
        have h := ih (n := n + 1) (by omega) (by omega)
        rw [hsucc]
        split_ifs <;> omega

/-- In steps of one nothing is left. -/
lemma keptCount_one (n m : ℕ) : keptCount 1 n m = 0 := by
  induction m generalizing n with
  | zero => rfl
  | succ m ih => rw [keptCount, Nat.mod_one, if_pos rfl, ih]

lemma kept_one (n : ℕ) (ys : List ι) : kept 1 n ys = [] := by
  rw [← List.length_eq_zero_iff, length_kept, keptCount_one]

/-- In greater steps the `start`-th node is counted with `1`, and stays. -/
lemma kept_first (hstep : 2 ≤ step) (x : ι) (ys : List ι) :
    kept step 0 (x :: ys) = x :: kept step 1 ys := by
  have hmod : countSucc 0 % step = 1 := Nat.mod_eq_of_lt hstep
  rw [kept, if_neg (by omega)]
  rfl

/-- Two counts in a row that are multiples of a step greater than one. -/
lemma succ_multiples (hstep : 2 ≤ step) (hn : n < 2 ^ 64) (h₁ : step ∣ countSucc n)
    (h₂ : step ∣ countSucc (countSucc n)) : n = 2 ^ 64 - 2 := by
  have hone : ¬ step ∣ 1 := fun hd => by
    have := Nat.le_of_dvd (by omega) hd
    omega
  by_cases hlast : n = 2 ^ 64 - 1
  · have hsucc : countSucc (countSucc n) = 1 := by
      unfold countSucc
      omega
    exact absurd (hsucc ▸ h₂) hone
  · have hsucc : countSucc n = n + 1 := Nat.mod_eq_of_lt (by omega)
    by_contra hne
    have hsucc' : countSucc (countSucc n) = n + 1 + 1 := by
      rw [hsucc]
      exact Nat.mod_eq_of_lt (by omega)
    rw [hsucc] at h₁
    rw [hsucc'] at h₂
    exact hone ((Nat.dvd_add_right h₁).1 h₂)

/-- A walk over two nodes or more leaves none only if it deletes two with the counter at
`2 ^ 64 - 1` and at `0`. -/
lemma keptCount_eq_zero_iff (hstep : 2 ≤ step) (hn : n < 2 ^ 64) (hm : 2 ≤ m) :
    keptCount step n m = 0 ↔ DeletesBoth step (m, n) := by
  obtain ⟨k, rfl⟩ : ∃ k, m = k + 2 := ⟨m - 2, by omega⟩
  rw [DeletesBoth, Prod.mk.injEq]
  constructor
  · intro h
    have h₁ : countSucc n % step = 0 := by
      by_contra hne
      rw [keptCount, if_neg hne] at h
      omega
    rw [keptCount, if_pos h₁] at h
    have h₂ : countSucc (countSucc n) % step = 0 := by
      by_contra hne
      rw [keptCount, if_neg hne] at h
      omega
    rw [keptCount, if_pos h₂] at h
    obtain rfl := succ_multiples hstep hn (Nat.dvd_of_mod_eq_zero h₁) (Nat.dvd_of_mod_eq_zero h₂)
    refine ⟨⟨?_, rfl⟩, Nat.dvd_of_mod_eq_zero h₁⟩
    -- a third node would be counted with `1`
    cases k with
    | zero => rfl
    | succ k =>
        have hthird : countSucc (countSucc (countSucc (2 ^ 64 - 2))) % step ≠ 0 := by
          rw [show countSucc (countSucc (countSucc (2 ^ 64 - 2))) = 1 from rfl,
            Nat.mod_eq_of_lt (by omega)]
          omega
        rw [keptCount, if_neg hthird] at h
        omega
  · rintro ⟨⟨hk, rfl⟩, hd⟩
    obtain rfl : k = 0 := by omega
    have h₁ : countSucc (2 ^ 64 - 2) % step = 0 := Nat.mod_eq_zero_of_dvd hd
    have h₂ : countSucc (countSucc (2 ^ 64 - 2)) % step = 0 := Nat.zero_mod step
    rw [keptCount, if_pos h₁, keptCount, if_pos h₂, keptCount]

/-! ### Walk after walk -/

/-- There are never more nodes than before. -/
lemma walk_iterate_le (step : ℕ) (w : ℕ × ℕ) (k : ℕ) : ((walk step)^[k] w).1 ≤ w.1 := by
  induction k with
  | zero => exact Nat.le_refl _
  | succ k ih =>
      rw [Function.iterate_succ_apply']
      exact (keptCount_le step _ _).trans ih

/-- A walk over two nodes or more makes this smaller: with a wrap there are fewer nodes, and
without one the counter is nearer to it. -/
def untilWrap (w : ℕ × ℕ) : ℕ := w.1 * (2 ^ 64 + 1) + (2 ^ 64 - w.2)

lemma untilWrap_walk (hn : w.2 < 2 ^ 64) (hm : 2 ≤ w.1) :
    untilWrap (walk step w) < untilWrap w := by
  obtain ⟨m, n⟩ := w
  dsimp only at hn hm
  have hle := keptCount_le step n m
  simp only [untilWrap, walk]
  by_cases hwrap : 2 ^ 64 ≤ n + m
  · have hlt : keptCount step n m < m := keptCount_lt hn hwrap
    omega
  · rw [Nat.mod_eq_of_lt (show n + m < 2 ^ 64 by omega)]
    omega

/-- Without a wrap the nodes deleted are the multiples of `step` that the counter comes to. -/
lemma keptCount_add_div (hstep : 0 < step) (hlt : n + m < 2 ^ 64) :
    keptCount step n m + (n + m) / step = m + n / step := by
  induction m generalizing n with
  | zero => simp [keptCount]
  | succ m ih =>
      have hsucc : countSucc n = n + 1 := Nat.mod_eq_of_lt (by omega)
      have h := ih (n := n + 1) (by omega)
      rw [show n + 1 + m = n + (m + 1) by omega] at h
      rw [keptCount, hsucc]
      rcases count_cases hstep n with ⟨hj, hmod, hdiv⟩ | ⟨hj, hmod, hdiv⟩
      · rw [if_neg (by omega)]
        omega
      · rw [if_pos hmod]
        omega

/-- Short of the wrap the counter tells how many nodes are deleted, as long as there are two
nodes or more. -/
lemma walk_unwrapped {N : ℕ} (hstep : 2 ≤ step) (hN : step * N < 2 ^ 64)
    (h : 2 ≤ w.1 → w.1 + w.2 / step = N) (htwo : 2 ≤ (walk step w).1) :
    (walk step w).1 + (walk step w).2 / step = N := by
  obtain ⟨m, n⟩ := w
  have hm : 2 ≤ m := htwo.trans (keptCount_le step n m)
  have hsum : m + n / step = N := h hm
  have hlt : n + m < 2 ^ 64 := by
    have hn : n < step * (n / step + 1) := Nat.lt_mul_div_succ n (by omega)
    have hmul : step * N = step * (n / step + 1) + step * (m - 1) := by
      rw [← Nat.mul_add]
      congr 1
      omega
    have hle : 1 * (m - 1) ≤ step * (m - 1) := Nat.mul_le_mul_right _ (by omega)
    omega
  have hdiv := keptCount_add_div (show 0 < step by omega) hlt
  show keptCount step n m + (n + m) % 2 ^ 64 / step = N
  rw [Nat.mod_eq_of_lt hlt]
  omega

/-- With steps greater than one a node is left of every list that is not very long. -/
theorem sparesOne_of_lt (hstep : 2 ≤ step) (hle : start ≤ n) (hlt : step * n < 2 ^ 64) :
    SparesOne step start n := by
  have hn : n ≤ step * n := Nat.le_mul_of_pos_left n (by omega)
  have hall : ∀ k, 2 ≤ (walks step start n k).1 →
      (walks step start n k).1 + (walks step start n k).2 / step = n := by
    intro k
    induction k with
    | zero =>
        intro _
        have hfirst := keptCount_add_div (show 0 < step by omega)
          (show 0 + (n - (start - 1)) < 2 ^ 64 by omega)
        rw [Nat.zero_add, Nat.zero_div] at hfirst
        show start - 1 + keptCount step 0 (n - (start - 1)) +
          (n - (start - 1)) % 2 ^ 64 / step = n
        rw [Nat.mod_eq_of_lt (by omega)]
        omega
    | succ k ih =>
        intro htwo
        rw [walks, Function.iterate_succ_apply'] at htwo ⊢
        exact walk_unwrapped hstep hlt ih htwo
  refine Or.inr (Or.inr ⟨hstep, fun k => ?_⟩)
  rintro ⟨hw, d, hd⟩
  -- the counter after the walk would be `step * n` or more
  have hsum : 2 + (2 ^ 64 - 2) / step = n := by
    have h := hall k
    rw [hw] at h
    exact h (Nat.le_refl 2)
  have hle : d ≤ (2 ^ 64 - 2) / step + 1 := by
    rw [← Nat.add_div_right _ (by omega), Nat.le_div_iff_mul_le (by omega), Nat.mul_comm]
    omega
  have hmul : step * n = step * d + step * (n - d) := by
    rw [← Nat.mul_add]
    congr 1
    omega
  have hone : step * 1 ≤ step * (n - d) := Nat.mul_le_mul_left _ (by omega)
  omega

/-! ### The walks over the list -/

variable [DecidableEq ι] {l : Links ι} {head cur x : ι} {s : Joseph ι}

/-- During a walk that began with the counter at `n`, with `us` behind `cur` and `ys` to come:
now `vs` are behind it and `zs` to come. -/
structure Walking (head : ι) (step n : ℕ) (us ys vs zs : List ι) (s : Joseph ι) : Prop where
  ring : s.links.Ring head (vs ++ zs)
  kept_eq : vs ++ kept step s.n zs = us ++ kept step n ys
  lt : s.n < 2 ^ 64
  count_eq : (s.n + zs.length) % 2 ^ 64 = (n + ys.length) % 2 ^ 64

/-- What the second loop does with the next node. -/
lemma Walking.count {vs zs : List ι} (h : Walking head step n us ys vs (x :: zs) s)
    (hpos : 0 < step) :
    ∃ s', (countBody step x s).Ends (.ok (.inl s')) ∧ s'.links.next x = zs.headD head ∧
      ∃ vs', Walking head step n us ys vs' zs s' := by
  have hnext : s.links.next x = zs.headD head := Ring.next_mem h.ring
  have hkept := h.kept_eq
  have hsucc : (s.n + 1) % 2 ^ 64 = countSucc s.n := rfl
  have hcount : (countSucc s.n + zs.length) % 2 ^ 64 = (n + ys.length) % 2 ^ 64 := by
    rw [← h.count_eq, countSucc, List.length_cons]
    omega
  rw [kept] at hkept
  by_cases hdel : countSucc s.n % step = 0
  · rw [if_pos hdel] at hkept
    refine ⟨⟨s.links.listDel x, countSucc s.n, s.del ++ [x]⟩, ?_, ?_, vs, h.ring.listDel, hkept,
      countSucc_lt s.n, hcount⟩
    · rw [countBody, hsucc, if_neg (show step ≠ 0 by omega), if_pos hdel]
      simp
    · exact (listDel_next_self h.ring).trans hnext
  · rw [if_neg hdel] at hkept
    refine ⟨{ s with n := countSucc s.n }, ?_, hnext, vs ++ [x], by simpa using h.ring,
      by simpa using hkept, countSucc_lt s.n, hcount⟩
    rw [countBody, hsucc, if_neg (show step ≠ 0 by omega), if_neg hdel]
    simp

/-- A walk over the nodes to come leaves those that are not counted with a multiple of
`step`. -/
lemma kept_ends (hpos : 0 < step) (hr : s.links.Ring head (us ++ ys)) (hn : s.n < 2 ^ 64) :
    ∃ s', (forEachFrom (fun s => (Joseph.links s).next) (countBody step) head (ys.headD head)
        s).Ends (.ok (.inl s')) ∧
      s'.links.Ring head (us ++ kept step s.n ys) ∧ s'.n = (s.n + ys.length) % 2 ^ 64 := by
  obtain ⟨s', hend, vs, h⟩ : ∃ s', (forEachFrom (fun s => (Joseph.links s).next)
      (countBody step) head (ys.headD head) s).Ends (.ok (.inl s')) ∧
        ∃ vs, Walking head step s.n us ys vs [] s' := by
    refine forEachFrom_ends (fun zs t => ∃ vs, Walking head step s.n us ys vs zs t) ?_ ?_
      ⟨us, hr, rfl, hn, rfl⟩
    · rintro x zs t ⟨vs, h⟩
      exact h.count hpos
    · exact fun hmem => hr.head_notMem (List.mem_append_right us hmem)
  refine ⟨s', hend, ?_, ?_⟩
  · rw [← h.kept_eq]
    simpa [kept] using h.ring
  · rw [← h.count_eq, List.length_nil, Nat.add_zero, Nat.mod_eq_of_lt h.lt]

/-- With two nodes or more there is another walk. -/
lemma joesphBody_ends (hpos : 0 < step) (hr : s.links.Ring head (us ++ ys)) (hn : s.n < 2 ^ 64)
    (hcur : s.links.next cur = ys.headD head) (htwo : 2 ≤ (us ++ ys).length) :
    ∃ s', (joesphBody head step (s, cur)).Ends (.ok (.inl (s', head))) ∧
      s'.links.Ring head (us ++ kept step s.n ys) ∧ s'.n = (s.n + ys.length) % 2 ^ 64 := by
  obtain ⟨s', hend, h⟩ := kept_ends hpos hr hn
  refine ⟨s', ?_, h⟩
  have hwalk : (listForEachContinue Joseph.links (countBody step) cur head s).Ends
      (.ok (.inl s')) := by
    rw [listForEachContinue, hcur]
    exact hend
  rw [joesphBody, if_pos (next_next_ne_head hr htwo)]
  exact hwalk.bind (by simp)

/-- With one node or none there is no other walk. -/
lemma joesphBody_exit (hr : s.links.Ring head xs) (hone : xs.length ≤ 1) (cur : ι) :
    (joesphBody head step (s, cur)).Ends (.ok (.inr s)) := by
  have htest : s.links.next (s.links.next head) = head := by
    rcases xs with _ | ⟨y, _ | ⟨z, zs⟩⟩
    · have hnext : s.links.next head = head := hr.next_head
      rw [hnext, hnext]
    · exact (next_next_eq_head_iff hr (by simp)).2 ⟨y, rfl⟩
    · simp at hone
  rw [joesphBody, if_neg (fun hne => hne htest)]
  simp

/-- From the head on, in steps greater than one: the loop ends, and with one node unless some
walk deletes both of two. -/
lemma joesphLoop_from_head (hstep : 2 ≤ step) (hr : s.links.Ring head xs) (hn : s.n < 2 ^ 64)
    (hne : xs ≠ []) :
    ∃ s' ys, (Comp.loop (joesphBody head step) (s, head)).Ends (.ok s') ∧
      s'.links.Ring head ys ∧ ys.Sublist xs ∧
      (ys.length = 1 ↔ ∀ k, ¬ DeletesBoth step ((walk step)^[k] (xs.length, s.n))) := by
  -- by induction on what every walk makes smaller
  induction hk : untilWrap (xs.length, s.n) using Nat.strong_induction_on generalizing xs s with
  | _ k ih =>
      have hpos : 0 < xs.length := List.length_pos_iff.2 hne
      by_cases hone : xs.length ≤ 1
      · refine ⟨s, xs, (joesphBody_exit hr hone head).loop_inr, hr, List.Sublist.refl xs, ?_⟩
        refine ⟨fun _ k hd => ?_, fun _ => by omega⟩
        have hle := walk_iterate_le step (xs.length, s.n) k
        rw [hd.1] at hle
        simp only at hle
        omega
      · have htwo : 2 ≤ ([] ++ xs).length := by
          rw [List.nil_append]
          omega
        obtain ⟨s₁, hb, hr₁, hn₁⟩ : ∃ s', (joesphBody head step (s, head)).Ends
            (.ok (.inl (s', head))) ∧ s'.links.Ring head ([] ++ kept step s.n xs) ∧
            s'.n = (s.n + xs.length) % 2 ^ 64 :=
          joesphBody_ends (by omega) hr hn hr.next_head htwo
        rw [List.nil_append] at hr₁
        have hwalk : walk step (xs.length, s.n) = ((kept step s.n xs).length, s₁.n) := by
          rw [walk, length_kept, hn₁]
        by_cases hnone : kept step s.n xs = []
        · -- the walk deletes them all
          rw [hnone] at hr₁
          refine ⟨s₁, [], hb.loop_inl (joesphBody_exit hr₁ (by simp) head).loop_inr, hr₁,
            List.nil_sublist xs, ⟨fun h => by simp at h, fun h => absurd ?_ (h 0)⟩⟩
          refine (keptCount_eq_zero_iff hstep hn (by omega)).1 ?_
          rw [← length_kept, hnone, List.length_nil]
        · have hlt : untilWrap (walk step (xs.length, s.n)) < untilWrap (xs.length, s.n) :=
            untilWrap_walk hn (show 2 ≤ xs.length by omega)
          rw [hwalk] at hlt
          have hfirst : ¬ DeletesBoth step (xs.length, s.n) := by
            rw [← keptCount_eq_zero_iff hstep hn (by omega), ← length_kept]
            exact fun hlen => hnone (List.length_eq_zero_iff.1 hlen)
          obtain ⟨s', ys, hend, hring, hsub, hiff⟩ := ih _ (hk ▸ hlt) hr₁
            (hn₁ ▸ Nat.mod_lt _ (by omega)) hnone rfl
          refine ⟨s', ys, hb.loop_inl hend, hring, hsub.trans (kept_sublist step s.n xs), ?_⟩
          rw [hiff, ← hwalk]
          constructor
          · intro h k
            cases k with
            | zero => exact hfirst
            | succ k => exact h k
          · exact fun h k => h (k + 1)

/-! ### The whole loop -/

omit [DecidableEq ι] in
/-- What the first walk leaves, in numbers. -/
lemma walks_append (step : ℕ) (us : List ι) (x : ι) (ys : List ι) (k : ℕ) :
    walks step (us.length + 1) (us ++ x :: ys).length k =
      (walk step)^[k] ((us ++ kept step 0 (x :: ys)).length, (x :: ys).length % 2 ^ 64) := by
  have hrest : (us ++ x :: ys).length - (us.length + 1 - 1) = (x :: ys).length := by
    rw [List.length_append]
    omega
  rw [walks, hrest, Nat.add_sub_cancel, ← length_kept, ← List.length_append]

/-- In steps of one a walk from the head on leaves nothing. -/
lemma joesphLoop_one (hr : s.links.Ring head us) (hn : s.n < 2 ^ 64) :
    ∃ s' zs, (Comp.loop (joesphBody head 1) (s, head)).Ends (.ok s') ∧ s'.links.Ring head zs ∧
      zs.Sublist us ∧ (zs.length = 1 ↔ us.length = 1) := by
  by_cases hone : us.length ≤ 1
  · exact ⟨s, us, (joesphBody_exit hr hone head).loop_inr, hr, List.Sublist.refl us, Iff.rfl⟩
  · obtain ⟨s₁, hb, hr₁, -⟩ : ∃ s', (joesphBody head 1 (s, head)).Ends (.ok (.inl (s', head))) ∧
        s'.links.Ring head ([] ++ kept 1 s.n us) ∧ s'.n = (s.n + us.length) % 2 ^ 64 :=
      joesphBody_ends (by omega) hr hn hr.next_head (by simpa using (show 2 ≤ us.length by omega))
    rw [kept_one, List.nil_append] at hr₁
    refine ⟨s₁, [], hb.loop_inl (joesphBody_exit hr₁ (by simp) head).loop_inr, hr₁,
      List.nil_sublist us, ?_⟩
    rw [List.length_nil]
    omega

/-- `joesph_loop` ends, and with a single node just when the numbers say so. -/
lemma joesphLoop_left {ys : List ι} (hr : l.Ring head (us ++ x :: ys)) (hstep : 1 ≤ step) :
    ∃ s zs, (joesphLoop head (us.length + 1) step l).Ends (.ok (s, zs.headD head)) ∧
      s.links.Ring head zs ∧ zs.Sublist (us ++ x :: ys) ∧
      (zs.length = 1 ↔ SparesOne step (us.length + 1) (us ++ x :: ys).length) := by
  suffices hloop : ∃ s zs, (Comp.loop (joesphBody head step) (⟨l, 0, []⟩, l.prev x)).Ends (.ok s) ∧
      s.links.Ring head zs ∧ zs.Sublist (us ++ x :: ys) ∧
      (zs.length = 1 ↔ SparesOne step (us.length + 1) (us ++ x :: ys).length) by
    obtain ⟨s, zs, hend, hring, hsub, hiff⟩ := hloop
    refine ⟨s, zs, ?_, hring, hsub, hiff⟩
    rw [← hring.next_head]
    exact joesphLoop_of_loop hr hend
  have hlen : (us ++ x :: ys).length = us.length + (ys.length + 1) := List.length_append
  by_cases hone : (us ++ x :: ys).length ≤ 1
  · exact ⟨⟨l, 0, []⟩, us ++ x :: ys, (joesphBody_exit hr hone _).loop_inr, hr,
      List.Sublist.refl _, fun h => Or.inl h, fun _ => by omega⟩
  · obtain ⟨s₁, hb, hr₁, hn₁⟩ : ∃ s', (joesphBody head step (⟨l, 0, []⟩, l.prev x)).Ends
        (.ok (.inl (s', head))) ∧ s'.links.Ring head (us ++ kept step 0 (x :: ys)) ∧
        s'.n = (0 + (x :: ys).length) % 2 ^ 64 :=
      joesphBody_ends (by omega) hr (by simp) (hr.next_prev (by simp)) (by omega)
    have hn : s₁.n < 2 ^ 64 := hn₁ ▸ Nat.mod_lt _ (by omega)
    have hsub₁ : (us ++ kept step 0 (x :: ys)).Sublist (us ++ x :: ys) :=
      (List.Sublist.refl us).append (kept_sublist step 0 (x :: ys))
    by_cases htwo : 2 ≤ step
    · have hne : us ++ kept step 0 (x :: ys) ≠ [] := by simp [kept_first htwo]
      obtain ⟨s', zs, hend, hring, hsub, hiff⟩ := joesphLoop_from_head htwo hr₁ hn hne
      refine ⟨s', zs, hb.loop_inl hend, hring, hsub.trans hsub₁, ?_⟩
      rw [hiff, SparesOne, hn₁, Nat.zero_add]
      simp only [walks_append]
      constructor
      · exact fun h => Or.inr (Or.inr ⟨htwo, h⟩)
      · rintro (h | ⟨h, -⟩ | ⟨-, h⟩)
        · omega
        · omega
        · exact h
    · -- the first walk leaves the nodes before the `start`-th
      obtain rfl : step = 1 := by omega
      rw [kept_one, List.append_nil] at hr₁ hsub₁
      obtain ⟨s', zs, hend, hring, hsub, hiff⟩ := joesphLoop_one hr₁ hn
      refine ⟨s', zs, hb.loop_inl hend, hring, hsub.trans hsub₁, ?_⟩
      rw [hiff, SparesOne]
      omega

/-- Which lists `joesph_loop` leaves a node of. -/
theorem leavesOne_iff (hr : l.Ring head xs) (hstart : 1 ≤ start) (hle : start ≤ xs.length)
    (hstep : 1 ≤ step) : LeavesOne head start step l xs ↔ SparesOne step start xs.length := by
  obtain ⟨us, x, ys, rfl, rfl⟩ := exists_start hstart hle
  obtain ⟨s, zs, hend, hring, hsub, hiff⟩ := joesphLoop_left hr hstep
  rw [← hiff]
  constructor
  · rintro ⟨s', y, hend', -, hring'⟩
    obtain ⟨rfl, -⟩ : s = s' ∧ zs.headD head = y := by simpa using hend.unique hend'
    rw [hring.unique hring', List.length_singleton]
  · intro hone
    obtain ⟨y, rfl⟩ := List.length_eq_one_iff.1 hone
    exact ⟨s, y, hend, hsub.subset (List.mem_singleton.2 rfl), hring⟩

/-- Two nodes after the head `0`, every second one deleted from the second one on. -/
theorem leavesOne_iff_two : (1 ≤ 2 ∧ 2 ≤ [1, 2].length ∧ 1 ≤ 2) ∧
    (LeavesOne 0 2 2 ⟨fun i => (i + 1) % 3, fun i => (i + 2) % 3⟩ [1, 2] ↔ SparesOne 2 2 2) :=
  ⟨by decide, leavesOne_iff ⟨by decide, by simp [Adj]⟩ (by decide) (by decide) (by decide)⟩

/-- Of two nodes every one is deleted from the first one on. -/
theorem not_leavesOne_two :
    ¬ LeavesOne 0 1 1 ⟨fun i => (i + 1) % 3, fun i => (i + 2) % 3⟩ [1, 2] := by
  have hr : (⟨fun i => (i + 1) % 3, fun i => (i + 2) % 3⟩ : Links ℕ).Ring 0 ([] ++ 1 :: [2]) :=
    ⟨by decide, by simp [Adj]⟩
  obtain ⟨s, zs, hend, hring, -, hiff⟩ := joesphLoop_left hr (Nat.le_refl 1)
  rintro ⟨s', y, hend', -, hring'⟩
  obtain ⟨rfl, -⟩ : s = s' ∧ zs.headD 0 = y := by simpa using hend.unique hend'
  have hone : SparesOne 1 1 2 := hiff.1 (by rw [hring.unique hring', List.length_singleton])
  simp [SparesOne] at hone

end Links

end DemoClass
