import DemoClass.Sort.SortArrary

/-!
# The insertion that `insert_sort` and `shell_sort` share

Both functions take the element at `j` into `buf` and shift greater elements up by `step`
places, until one is found that is not greater or the next place lies below `offset`.  The
element then lives in `buf` only, and the place `k + step` is a hole.  The functions differ
in how they compute the places, with `int` or with `size_t`.  `Shifts` and `Passes` say
what a round of the inner and of the outer loop has to do, and from these alone follow the
bounds and the permutation for every `step`, and the stable order for `step = 1`.
-/

namespace DemoClass

open ListSort

namespace SortArrary

variable {α : Type}

/-- The array and the index of the inner loop of an insertion. -/
structure Shift (α : Type) where
  a : List α
  k : ℤ

/-- The array and the index of the loop that inserts one element after the other. -/
structure Pass (α : Type) where
  a : List α
  j : ℤ

/-- The element at `p` of `a` has been inserted.  In steps of one it has gone behind those
of the elements before it that do not compare greater. -/
structure Inserted (cmp : α → α → ℤ) (step p : ℕ) (a a' : List α) : Prop where
  perm : a'.Perm a
  adjacent : step = 1 → ∃ us vs x, a.take p = us ++ vs ∧ a[p]? = some x ∧
    a' = us ++ x :: (vs ++ a.drop (p + 1)) ∧ (∀ u ∈ us.getLast?, cmp u x ≤ 0) ∧
    ∀ v ∈ vs, 0 < cmp v x

/-- What a round of an inner loop does with `x` in `buf`, when the hole is at `hole`. -/
structure Shifts (cmp : α → α → ℤ) (step offset p : ℕ) (x : α)
    (body : Shift α → Comp Fault (Shift α ⊕ Shift α)) : Prop where
  move : ∀ a hole y, offset + step ≤ hole → hole ≤ p → hole < a.length →
    a[hole - step]? = some y → 0 < cmp y x →
    (body ⟨a, (hole : ℤ) - step⟩).Ends
      (.ok (.inl ⟨a.set hole y, ((hole - step : ℕ) : ℤ) - step⟩))
  stop : ∀ a hole y, offset + step ≤ hole → hole ≤ p → hole < a.length →
    a[hole - step]? = some y → ¬ 0 < cmp y x →
    (body ⟨a, (hole : ℤ) - step⟩).Ends (.ok (.inr ⟨a, (hole : ℤ) - step⟩))
  leave : ∀ a hole, hole < offset + step → hole ≤ p →
    (body ⟨a, (hole : ℤ) - step⟩).Ends (.ok (.inr ⟨a, (hole : ℤ) - step⟩))

/-- What a round of an outer loop does. -/
structure Passes (cmp : α → α → ℤ) (step offset nmemb : ℕ)
    (body : Pass α → Comp Fault (Pass α ⊕ List α)) : Prop where
  insert : ∀ a p, a.length = nmemb → offset + step ≤ p → p < nmemb →
    ∃ a', (body ⟨a, (p : ℤ)⟩).Ends (.ok (.inl ⟨a', ((p + step : ℕ) : ℤ)⟩)) ∧
      Inserted cmp step p a a'
  leave : ∀ a p, nmemb ≤ p → p ≤ nmemb + offset + step →
    (body ⟨a, (p : ℤ)⟩).Ends (.ok (.inr a))

variable {cmp : α → α → ℤ} {step offset p hole nmemb : ℕ} {a a' a₀ xs : List α} {x y : α}

/-! ### One insertion -/

/-- The array `a₀` while `x`, its element at `p`, is in `buf`: with `x` put into the hole it
is a permutation, and in steps of one the elements above the hole have moved up by one. -/
structure Held (cmp : α → α → ℤ) (step p : ℕ) (x : α) (a₀ a : List α) (hole : ℕ) : Prop where
  le : hole ≤ p
  lt : p < a.length
  perm : (a.set hole x).Perm a₀
  adjacent : step = 1 → ∃ us vs, a₀.take p = us ++ vs ∧ us.length = hole ∧
    a.set hole x = us ++ x :: (vs ++ a₀.drop (p + 1)) ∧ ∀ v ∈ vs, 0 < cmp v x

/-- Before anything is shifted the hole is the place of the element itself. -/
lemma Held.start (hx : a[p]? = some x) : Held cmp step p x a a p := by
  obtain ⟨hp, rfl⟩ := List.getElem?_eq_some_iff.1 hx
  have hset : a.set p a[p] = a := List.set_getElem_self hp
  refine ⟨Nat.le_refl p, hp, by rw [hset], fun _ => ⟨a.take p, [], by simp, ?_, ?_, by simp⟩⟩
  · rw [List.length_take]
    omega
  · rw [hset, List.nil_append, List.getElem_cons_drop, List.take_append_drop]

/-- A greater element goes into the hole, which is then at its place. -/
lemma Held.move (h : Held cmp step p x a₀ a hole) (hle : step ≤ hole) (hpos : 0 < step)
    (hy : a[hole - step]? = some y) (hcmp : 0 < cmp y x) :
    Held cmp step p x a₀ (a.set hole y) (hole - step) := by
  have hp := h.le
  have hlt := h.lt
  have hs : Shuffle 0 a.length ((a.set hole x)[·]?) (((a.set hole y).set (hole - step) x)[·]?) :=
    Shuffle.set_set (Nat.zero_le _) (by omega) (Nat.zero_le _) (by omega) (by omega) (by omega) hy
  refine ⟨by omega, by simpa using hlt, (hs.perm (by simp)).trans h.perm, fun hone => ?_⟩
  obtain ⟨us, vs, htake, hlen, hset, hvs⟩ := h.adjacent hone
  -- the last element before the hole is the one that moves
  obtain rfl | ⟨us, z, rfl⟩ := List.eq_nil_or_concat' us
  · simp only [List.length_nil] at hlen
    omega
  rw [List.length_append, List.length_singleton] at hlen
  have hpred : hole - step = us.length := by omega
  have hz : (a.set hole x)[hole - step]? = some z := by
    rw [hset, hpred]
    simp
  rw [List.getElem?_set_ne (by omega), hy] at hz
  obtain rfl := Option.some.inj hz
  refine ⟨us, y :: vs, by simp [htake], hpred.symm, ?_, ?_⟩
  · have hset' : a.set hole y = (a.set hole x).set hole y := (List.set_set x).symm
    rw [hset', hset, hpred, ← hlen]
    simp
  · simpa using ⟨hcmp, hvs⟩

/-- The place where the shifting stops is the place of the element. -/
lemma Held.inserted (h : Held cmp step p x a₀ a hole) (hx : a₀[p]? = some x)
    (hlow : step = 1 → hole = 0 ∨ ∃ y, a[hole - 1]? = some y ∧ cmp y x ≤ 0) :
    Inserted cmp step p a₀ (a.set hole x) := by
  refine ⟨h.perm, fun hone => ?_⟩
  obtain ⟨us, vs, htake, hlen, hset, hvs⟩ := h.adjacent hone
  refine ⟨us, vs, x, htake, hx, hset, fun u hu => ?_, hvs⟩
  obtain hnil | ⟨y, hy, hle⟩ := hlow hone
  · obtain rfl : us = [] := List.length_eq_zero_iff.1 (by omega)
    simp at hu
  · obtain ⟨us, rfl⟩ := List.getLast?_eq_some_iff.1 hu
    rw [List.length_append, List.length_singleton] at hlen
    have hu' : (a.set hole x)[hole - 1]? = some u := by
      rw [hset, ← hlen]
      simp
    rw [List.getElem?_set_ne (by omega), hy] at hu'
    obtain rfl := Option.some.inj hu'
    exact hle

/-- An inner loop ends with the element's place. -/
lemma Shifts.ends {body : Shift α → Comp Fault (Shift α ⊕ Shift α)}
    (hb : Shifts cmp step offset p x body) (hpos : 0 < step) (hoff : offset < step)
    (hx : a₀[p]? = some x) (h : Held cmp step p x a₀ a hole) (hle : offset ≤ hole) :
    ∃ (a' : List α) (hole' : ℕ),
      (Comp.loop body ⟨a, (hole : ℤ) - step⟩).Ends (.ok ⟨a', (hole' : ℤ) - step⟩) ∧
      hole' ≤ p ∧ p < a'.length ∧ Inserted cmp step p a₀ (a'.set hole' x) := by
  -- each round that continues moves the hole down
  induction hole using Nat.strong_induction_on generalizing a with
  | _ hole ih =>
      have hp := h.le
      have hlt := h.lt
      by_cases hgo : offset + step ≤ hole
      · obtain ⟨y, hy⟩ := exists_getElem?_eq (show hole - step < a.length by omega)
        by_cases hcmp : 0 < cmp y x
        · obtain ⟨a', hole', hend, h'⟩ := ih (hole - step) (by omega)
            (h.move (by omega) hpos hy hcmp) (by omega)
          exact ⟨a', hole', (hb.move a hole y hgo hp (by omega) hy hcmp).loop_inl hend, h'⟩
        · refine ⟨a, hole, (hb.stop a hole y hgo hp (by omega) hy hcmp).loop_inr, hp, hlt, ?_⟩
          refine h.inserted hx fun hone => Or.inr ⟨y, ?_, by omega⟩
          rw [← hy, hone]
      · refine ⟨a, hole, (hb.leave a hole (by omega) hp).loop_inr, hp, hlt, ?_⟩
        exact h.inserted hx fun hone => Or.inl (by omega)

/-- An element that is not smaller than the one before it stays where it is. -/
lemma Inserted.refl (hc : TotalPreorderOn cmp Set.univ) (hx : a[p]? = some x)
    (hy : a[p - step]? = some y) (hcmp : 0 ≤ cmp x y) : Inserted cmp step p a a := by
  have h : Inserted cmp step p a (a.set p x) := by
    refine (Held.start hx).inserted hx fun hone => Or.inr ⟨y, ?_, ?_⟩
    · rw [← hy, hone]
    · exact (hc.nonneg_iff trivial trivial).1 hcmp
  obtain ⟨hp, rfl⟩ := List.getElem?_eq_some_iff.1 hx
  rwa [List.set_getElem_self hp] at h

/-! ### One after the other -/

/-- In steps of one, inserting the next element keeps the elements before it stably sorted. -/
lemma Inserted.isStableSort (hc : TotalPreorderOn cmp Set.univ) (h : Inserted cmp 1 p a a')
    (hp : p < a.length) (hs : IsStableSort cmp (xs.take p) (a.take p))
    (hrest : a.drop p = xs.drop p) :
    IsStableSort cmp (xs.take (p + 1)) (a'.take (p + 1)) ∧
      a'.drop (p + 1) = xs.drop (p + 1) := by
  obtain ⟨us, vs, x, htake, hx, ha', hus, hvs⟩ := h.adjacent rfl
  have hlen : us.length + vs.length = p := by
    rw [← List.length_append, ← htake, List.length_take]
    omega
  have hsplit : a' = us ++ x :: vs ++ a.drop (p + 1) := by simp [ha']
  have hlen' : (us ++ x :: vs).length = p + 1 := by
    rw [List.length_append, List.length_cons]
    omega
  have hxs : xs[p]? = some x := by
    have h₀ : (xs.drop p)[0]? = some x := by simpa [← hrest] using hx
    simpa using h₀
  rw [hsplit, List.take_left' hlen', List.drop_left' hlen', List.take_add_one, hxs]
  refine ⟨?_, by rw [← List.drop_drop, hrest, List.drop_drop]⟩
  rw [htake] at hs
  have hord : Ordered cmp us := hs.ordered.sublist (List.sublist_append_left us vs)
  exact hs.concat hc (hord.le_of_getLast? hc hus) hvs

lemma Passes.ends_from {body : Pass α → Comp Fault (Pass α ⊕ List α)}
    (hc : TotalPreorderOn cmp Set.univ) (hb : Passes cmp step offset xs.length body)
    (hpos : 0 < step) (hle : offset + step ≤ p) (hle' : p ≤ xs.length + offset + step)
    (hperm : a.Perm xs) (hs : step = 1 → offset = 0 →
      IsStableSort cmp (xs.take p) (a.take p) ∧ a.drop p = xs.drop p) :
    ∃ ys, (Comp.loop body ⟨a, (p : ℤ)⟩).Ends (.ok ys) ∧ ys.Perm xs ∧
      (step = 1 → offset = 0 → IsStableSort cmp xs ys) := by
  -- by induction on the number of elements from `p` on
  induction hk : xs.length - p using Nat.strong_induction_on generalizing p a with
  | _ k ih =>
      by_cases hlt : p < xs.length
      · obtain ⟨a', hend, hins⟩ := hb.insert a p hperm.length_eq hle hlt
        have hs' : step = 1 → offset = 0 →
            IsStableSort cmp (xs.take (p + step)) (a'.take (p + step)) ∧
              a'.drop (p + step) = xs.drop (p + step) := by
          intro hone hoff
          subst hone
          obtain ⟨hsort, hrest⟩ := hs rfl hoff
          exact hins.isStableSort hc (hperm.length_eq ▸ hlt) hsort hrest
        obtain ⟨ys, hys, h⟩ := ih (xs.length - (p + step)) (by omega) (by omega) (by omega)
          (hins.perm.trans hperm) hs' rfl
        exact ⟨ys, hend.loop_inl hys, h⟩
      · refine ⟨a, (hb.leave a p (by omega) hle').loop_inr, hperm, fun hone hoff => ?_⟩
        have hsort := (hs hone hoff).1
        rwa [List.take_of_length_le (by omega),
          List.take_of_length_le (by rw [hperm.length_eq]; omega)] at hsort

/-- Every element is inserted, from the second one of its part on. -/
lemma Passes.ends {body : Pass α → Comp Fault (Pass α ⊕ List α)}
    (hc : TotalPreorderOn cmp Set.univ) (hb : Passes cmp step offset xs.length body)
    (hpos : 0 < step) :
    ∃ ys, (Comp.loop body ⟨xs, ((offset + step : ℕ) : ℤ)⟩).Ends (.ok ys) ∧ ys.Perm xs ∧
      (step = 1 → offset = 0 → IsStableSort cmp xs ys) := by
  refine hb.ends_from hc hpos (Nat.le_refl _) (by omega) (List.Perm.refl xs) fun hone hoff => ?_
  subst hone hoff
  refine ⟨⟨List.Perm.refl _, ?_, fun _ => rfl⟩, rfl⟩
  rcases xs with _ | ⟨x, xs⟩
  · exact List.Pairwise.nil
  · simp

end SortArrary

end DemoClass
