import DemoClass.Lib.Greedy

/-!
# Sorting with an inexact comparison

A program sorts with a comparison `c` that is meant to be the total preorder `d`, but may
give a wrong answer on some arguments.  Elements are inserted one by one, and an element
keeps its place relative to the others once it is there.  So the result is in the order of
`d` exactly when `c` answers the questions that the insertion by `d` asks as `d` does
(`ordered_insertFront_iff`, `ordered_insertBack_iff`, `ordered_insertionSort_iff`), and then
both insertions do the same.  The last section says this of the rounds of the greedy
construction, on the weights alone (`Greedy.steps_ordered_iff`).
-/

namespace DemoClass

namespace ListSort

variable {α : Type} {c d : α → α → ℤ} {R : α → α → Prop} {x : α} {xs : List α}

/-- All elements with which `x` is compared when it is inserted by `d` from the front are
related to it by `R`. -/
def AllCompared (R : α → α → Prop) (d : α → α → ℤ) (x : α) : List α → Prop
  | [] => True
  | v :: vs => R x v ∧ (0 < d x v → AllCompared R d x vs)

lemma insertFront_cons (c : α → α → ℤ) (x v : α) (vs : List α) :
    insertFront c x (v :: vs) = if 0 < c x v then v :: insertFront c x vs else x :: v :: vs := by
  by_cases h : 0 < c x v
  · simp [insertFront, h]
  · simp [insertFront, h]

/-! ### Insertion from the front -/

/-- Where `c` answers as `d` does, both insert at the same place. -/
lemma insertFront_eq_of_allCompared (hR : ∀ v ∈ xs, R x v → (0 < c x v ↔ 0 < d x v))
    (h : AllCompared R d x xs) : insertFront c x xs = insertFront d x xs := by
  induction xs with
  | nil => rfl
  | cons v vs ih =>
      have hv := hR v (by simp) h.1
      rw [insertFront_cons, insertFront_cons]
      by_cases hd : 0 < d x v
      · rw [if_pos hd, if_pos (hv.2 hd), ih (fun u hu => hR u (by simp [hu])) (h.2 hd)]
      · rw [if_neg hd, if_neg fun hc => hd (hv.1 hc)]

/-- The result of an insertion is ordered exactly when every answer of `c` is right. -/
lemma ordered_insertFront_iff (hd : TotalPreorderOn d Set.univ) (ho : Ordered d xs)
    (hR : ∀ v ∈ xs, R x v ↔ (0 < c x v ↔ 0 < d x v)) (heq : ∀ v ∈ xs, d x v = 0 → c x v ≤ 0) :
    Ordered d (insertFront c x xs) ↔ AllCompared R d x xs := by
  have hright : AllCompared R d x xs → Ordered d (insertFront c x xs) := by
    intro h
    rw [insertFront_eq_of_allCompared (fun v hv => (hR v hv).1) h]
    exact insertFront_ordered hd trivial (fun _ _ => trivial) ho
  refine ⟨?_, hright⟩
  clear hright
  induction xs with
  | nil => exact fun _ => trivial
  | cons v vs ih =>
      intro h
      rw [insertFront_cons] at h
      by_cases hc : 0 < c x v
      · rw [if_pos hc] at h
        -- `x` comes behind `v`, so `v` is smaller
        have hvx : d v x ≤ 0 :=
          List.rel_of_pairwise_cons h ((insertFront_perm c x vs).mem_iff.2 (by simp))
        have hxv : 0 ≤ d x v := (hd.nonneg_iff trivial trivial).2 hvx
        have hne : d x v ≠ 0 := fun he => absurd (heq v (by simp) he) (not_le.2 hc)
        have hpos : 0 < d x v := lt_of_le_of_ne hxv hne.symm
        refine ⟨(hR v (by simp)).2 (iff_of_true hc hpos), fun _ => ?_⟩
        exact ih (List.Pairwise.of_cons ho) (fun u hu => hR u (by simp [hu]))
          (fun u hu => heq u (by simp [hu])) (List.Pairwise.of_cons h)
      · rw [if_neg hc] at h
        have hxv : ¬ 0 < d x v := not_lt.2 (List.rel_of_pairwise_cons h (by simp))
        exact ⟨(hR v (by simp)).2 (iff_of_false hc hxv), fun hpos => absurd hpos hxv⟩

/-! ### Insertion from the back -/

lemma insertBack_eq_of_allCompared (hR : ∀ v ∈ xs, R x v → (0 < c v x ↔ 0 < d v x))
    (h : AllCompared R (fun a b => d b a) x xs.reverse) :
    insertBack c x xs = insertBack d x xs := by
  rw [insertBack_eq_reverse, insertBack_eq_reverse]
  refine congrArg _ (insertFront_eq_of_allCompared (fun v hv => ?_) h)
  exact hR v (List.mem_reverse.1 hv)

lemma ordered_insertBack_iff (hd : TotalPreorderOn d Set.univ) (ho : Ordered d xs)
    (hR : ∀ v ∈ xs, R x v ↔ (0 < c v x ↔ 0 < d v x)) (heq : ∀ v ∈ xs, d v x = 0 → c v x ≤ 0) :
    Ordered d (insertBack c x xs) ↔ AllCompared R (fun a b => d b a) x xs.reverse := by
  rw [insertBack_eq_reverse, ← ordered_reverse, List.reverse_reverse]
  refine ordered_insertFront_iff hd.flip ((ordered_reverse d xs).2 ho) (fun v hv => ?_)
    fun v hv => ?_
  · exact hR v (List.mem_reverse.1 hv)
  · exact heq v (List.mem_reverse.1 hv)

/-- What is out of order stays out of order. -/
lemma ordered_of_insertBack (h : Ordered d (insertBack c x xs)) : Ordered d xs := by
  refine h.sublist ?_
  conv_lhs => rw [← List.rdropWhile_append_rtakeWhile (l := xs) (p := fun v => 0 < c v x)]
  exact (List.Sublist.refl _).append (List.sublist_cons_self x _)

/-! ### Insertion sort -/

/-- The shortcut agrees with the insertion if `c` never says that two elements are both at
least the other one and that the second is greater. -/
lemma insertStep_eq_insertBack' (hc : ∀ a b, 0 ≤ c a b → c b a ≤ 0) (xs : List α) (x : α) :
    insertStep c xs x = insertBack c x xs := by
  rcases List.eq_nil_or_concat xs with rfl | ⟨ys, j, rfl⟩
  · simp [insertStep, insertBack]
  · by_cases h : 0 ≤ c x j
    · have hn : ¬ 0 < c j x := not_lt.2 (hc x j h)
      simp [insertStep, insertBack, h, hn]
    · simp [insertStep, h]

lemma insertionSort_concat (hc : ∀ a b, 0 ≤ c a b → c b a ≤ 0) (xs : List α) (x : α) :
    insertionSort c (xs ++ [x]) = insertBack c x (insertionSort c xs) := by
  rw [insertionSort, List.foldl_concat, insertStep_eq_insertBack' hc]
  rfl

/-- Every element is compared with related elements when it is inserted in its turn. -/
def AllSorted (R : α → α → Prop) (d : α → α → ℤ) (xs : List α) : Prop :=
  ∀ us x vs, xs = us ++ x :: vs → AllCompared R (fun a b => d b a) x (insertionSort d us).reverse

lemma allSorted_concat : AllSorted R d (xs ++ [x]) ↔
    AllSorted R d xs ∧ AllCompared R (fun a b => d b a) x (insertionSort d xs).reverse := by
  constructor
  · intro h
    exact ⟨fun us y vs he => h us y (vs ++ [x]) (by simp [he]), h xs x [] rfl⟩
  · rintro ⟨h, hx⟩ us y vs he
    rcases List.eq_nil_or_concat vs with rfl | ⟨ws, z, rfl⟩
    · obtain ⟨rfl, he⟩ := List.append_inj' he rfl
      obtain rfl : x = y := by simpa using he
      exact hx
    · rw [List.concat_eq_append, ← List.cons_append, ← List.append_assoc] at he
      exact h us y ws (List.append_inj' he rfl).1

/-- **Insertion sort with an inexact comparison.**  The result is ordered exactly when the
answers on the way are right, and then it is the one of the exact comparison. -/
lemma ordered_insertionSort_iff (hd : TotalPreorderOn d Set.univ)
    (hc : ∀ a b, 0 ≤ c a b → c b a ≤ 0)
    (hR : ∀ a ∈ xs, ∀ b ∈ xs, R a b ↔ (0 < c b a ↔ 0 < d b a))
    (heq : ∀ a ∈ xs, ∀ b ∈ xs, d b a = 0 → c b a ≤ 0) :
    (Ordered d (insertionSort c xs) ↔ AllSorted R d xs) ∧
      (AllSorted R d xs → insertionSort c xs = insertionSort d xs) := by
  induction xs using List.reverseRecOn with
  | nil => simp [AllSorted, insertionSort]
  | append_singleton xs x ih =>
      have hdd : ∀ a b, 0 ≤ d a b → d b a ≤ 0 := fun a b =>
        (hd.nonneg_iff (Set.mem_univ a) (Set.mem_univ b)).1
      obtain ⟨hiff, hsame⟩ := ih (fun a ha b hb => hR a (by simp [ha]) b (by simp [hb]))
        fun a ha b hb => heq a (by simp [ha]) b (by simp [hb])
      have hmem : ∀ v ∈ insertionSort d xs, v ∈ xs ++ [x] := fun v hv =>
        List.mem_append_left _ ((insertionSort_perm d xs).mem_iff.1 hv)
      have hbR : ∀ v ∈ insertionSort d xs, R x v ↔ (0 < c v x ↔ 0 < d v x) := fun v hv =>
        hR x (by simp) v (hmem v hv)
      -- an element that is inserted leaves the ones before it in their order, right or wrong
      rw [insertionSort_concat hc, insertionSort_concat hdd, allSorted_concat]
      constructor
      · constructor
        · intro h
          have hxs := hiff.1 (ordered_of_insertBack h)
          have hsorted : Ordered d (insertionSort d xs) :=
            hsame hxs ▸ hiff.2 hxs
          rw [hsame hxs] at h
          refine ⟨hxs, (ordered_insertBack_iff hd hsorted hbR fun v hv => ?_).1 h⟩
          exact heq x (by simp) v (hmem v hv)
        · rintro ⟨hxs, hx⟩
          have hsorted : Ordered d (insertionSort d xs) :=
            hsame hxs ▸ hiff.2 hxs
          rw [hsame hxs]
          refine (ordered_insertBack_iff hd hsorted hbR fun v hv => ?_).2 hx
          exact heq x (by simp) v (hmem v hv)
      · rintro ⟨hxs, hx⟩
        rw [hsame hxs]
        exact insertBack_eq_of_allCompared (fun v hv => (hbR v hv).1) hx

end ListSort

/-! ### The rounds of the greedy construction -/

namespace Greedy

open ListSort

/-- The exact difference. -/
def diff (a b : ℕ) : ℤ := (a : ℤ) - b

/-- One step of the greedy construction, on the weights alone. -/
def stepWeights (c : ℕ → ℕ → ℤ) (add : ℕ → ℕ → ℕ) : List ℕ → List ℕ
  | a :: b :: ws => insertFront c (add a b) ws
  | ws => ws

variable {c : ℕ → ℕ → ℤ} {add : ℕ → ℕ → ℕ} {R : ℕ → ℕ → Prop} {B : ℕ} {ws : List ℕ}

lemma totalPreorder_diff : TotalPreorderOn diff Set.univ :=
  ⟨fun a _ b _ => by simp [diff], fun a _ b _ e _ hab hbe => by simp [diff] at *; omega⟩

lemma diff_nonpos {a b : ℕ} : diff a b ≤ 0 ↔ a ≤ b := by simp [diff]

lemma diff_pos {a b : ℕ} : 0 < diff a b ↔ b < a := by simp [diff]

/-- Before each of the first `n` steps of the exact construction, the sum of the first two
weights is compared with weights related to it by `R`. -/
def AllMerged (R : ℕ → ℕ → Prop) (n : ℕ) (ws : List ℕ) : Prop :=
  ∀ m < n, ∀ a b vs, (stepWeights diff (· + ·))^[m] ws = a :: b :: vs →
    AllCompared R diff (a + b) vs

lemma allMerged_succ {n : ℕ} : AllMerged R (n + 1) ws ↔
    (∀ a b vs, ws = a :: b :: vs → AllCompared R diff (a + b) vs) ∧
      AllMerged R n (stepWeights diff (· + ·) ws) := by
  constructor
  · intro h
    exact ⟨h 0 (Nat.succ_pos n), fun m hm => h (m + 1) (Nat.succ_lt_succ hm)⟩
  · rintro ⟨h0, h⟩ m hm
    cases m with
    | zero => exact h0
    | succ m => exact h m (Nat.lt_of_succ_lt_succ hm)

/-- One step. -/
lemma stepWeights_ordered_iff (hadd : ∀ a b, a + b < B → add a b = a + b)
    (hR : ∀ a < B, ∀ b < B, R a b ↔ (0 < c a b ↔ 0 < diff a b)) (hc : ∀ a, c a a ≤ 0)
    (ho : Ordered diff ws) (hB : ws.sum < B) :
    (Ordered diff (stepWeights c add ws) ↔
      ∀ a b vs, ws = a :: b :: vs → AllCompared R diff (a + b) vs) ∧
    ((∀ a b vs, ws = a :: b :: vs → AllCompared R diff (a + b) vs) →
      stepWeights c add ws = stepWeights diff (· + ·) ws) ∧
    (stepWeights diff (· + ·) ws).sum = ws.sum := by
  match ws with
  | [] => exact ⟨by simp [stepWeights], by simp [stepWeights], rfl⟩
  | [a] => exact ⟨by simp [stepWeights], by simp [stepWeights], rfl⟩
  | a :: b :: vs =>
      simp only [List.sum_cons] at hB
      have hab : add a b = a + b := hadd a b (by omega)
      have hvs : Ordered diff vs := (List.Pairwise.of_cons ho).of_cons
      have hlt : ∀ v ∈ vs, v < B := fun v hv => by
        have := List.single_le_sum (fun _ _ => Nat.zero_le _) v hv
        omega
      have hR' : ∀ v ∈ vs, R (a + b) v ↔ (0 < c (a + b) v ↔ 0 < diff (a + b) v) := fun v hv =>
        hR _ (by omega) _ (hlt v hv)
      have heq : ∀ v ∈ vs, diff (a + b) v = 0 → c (a + b) v ≤ 0 := by
        intro v _ h0
        obtain rfl : a + b = v := by
          rw [diff] at h0
          omega
        exact hc _
      simp only [stepWeights, hab]
      refine ⟨(ordered_insertFront_iff totalPreorder_diff hvs hR' heq).trans ?_, ?_, ?_⟩
      · constructor
        · rintro h a' b' vs' he
          obtain ⟨rfl, rfl, rfl⟩ : a = a' ∧ b = b' ∧ vs = vs' := by simpa using he
          exact h
        · exact fun h => h a b vs rfl
      · exact fun h => insertFront_eq_of_allCompared (fun v hv => (hR' v hv).1) (h a b vs rfl)
      · rw [(insertFront_perm diff (a + b) vs).sum_eq]
        simp [Nat.add_assoc]

/-- **The rounds with an inexact comparison.**  The weights are in order before every round
exactly when the answers on the way are right. -/
lemma steps_ordered_iff (hadd : ∀ a b, a + b < B → add a b = a + b)
    (hR : ∀ a < B, ∀ b < B, R a b ↔ (0 < c a b ↔ 0 < diff a b)) (hc : ∀ a, c a a ≤ 0)
    (ho : Ordered diff ws) (hB : ws.sum < B) (n : ℕ) :
    (∀ m ≤ n, Ordered diff ((stepWeights c add)^[m] ws)) ↔ AllMerged R n ws := by
  induction n generalizing ws with
  | zero =>
      refine iff_of_true (fun m hm => ?_) fun m hm => absurd hm (Nat.not_lt_zero m)
      rw [Nat.le_zero.1 hm]
      exact ho
  | succ n ih =>
      obtain ⟨hstep, hsame, hsum⟩ := stepWeights_ordered_iff hadd hR hc ho hB
      rw [allMerged_succ]
      constructor
      · intro h
        have h1 := hstep.1 (h 1 (Nat.succ_le_succ (Nat.zero_le n)))
        refine ⟨h1, (ih ?_ (hsum.trans_lt hB)).1 fun m hm => ?_⟩
        · rw [← hsame h1]
          exact h 1 (Nat.succ_le_succ (Nat.zero_le n))
        · rw [← hsame h1]
          exact h (m + 1) (Nat.succ_le_succ hm)
      · rintro ⟨h1, h⟩ m hm
        cases m with
        | zero => exact ho
        | succ m =>
            have ho' := hstep.2 h1
            rw [hsame h1] at ho'
            rw [Function.iterate_succ_apply, hsame h1]
            exact (ih ho' (hsum.trans_lt hB)).2 h m (Nat.le_of_succ_le_succ hm)

end Greedy

end DemoClass
