import DemoClass.Lib.ExchangeSort
import DemoClass.Sort.SortArrary

/-!
# Bubble sort of an array (`bubble_sort` of `sort_arrary.c`)

A pass carries the greatest element to the place `end`, as `ListSort.bubble` does.  For the
empty array `nmemb - 1` wraps, and is `-1` when it is an `int`.
-/

namespace DemoClass

open ListSort

namespace SortArrary

variable {α : Type}

/-- One round of the inner loop of `bubble_sort`, on the array and `start`. -/
def bubblePassBody (cmp : α → α → ℤ) (last : ℤ) (s : List α × ℤ) :
    Comp Fault ((List α × ℤ) ⊕ List α) :=
  if s.2 < last then do
    let next ← intAdd s.2 1
    let x ← load s.1 (toSize s.2)
    let y ← load s.1 (toSize next)
    let a ← if cmp x y > 0 then swap s.1 (toSize s.2) (toSize next) else pure s.1
    let start ← intAdd s.2 1
    pure (.inl (a, start))
  else pure (.inr s.1)

/-- One round of the outer loop of `bubble_sort`, on the array and `end`. -/
def bubbleSortBody (cmp : α → α → ℤ) (s : List α × ℤ) : Comp Fault ((List α × ℤ) ⊕ List α) :=
  if s.2 ≥ 1 then do
    let a ← Comp.loop (bubblePassBody cmp s.2) (s.1, 0)
    let last ← intSub s.2 1
    pure (.inl (a, last))
  else pure (.inr s.1)

/-- `bubble_sort` -/
def bubbleSort (cmp : α → α → ℤ) (base : List α) : Comp Fault (List α) :=
  Comp.loop (bubbleSortBody cmp) (base, toInt (sizeSub base.length 1))

variable {cmp : α → α → ℤ} {x : α} {us vs ws xs : List α}

/-- A round of the inner loop exchanges two neighbours if the first one is the greater. -/
lemma bubblePassBody_ends {last : ℤ} (hgo : (us.length : ℤ) < last)
    (hlt : us.length + 1 < 2 ^ 31) (cmp : α → α → ℤ) (x y : α) (vs : List α) :
    (bubblePassBody cmp last (us ++ x :: y :: vs, (us.length : ℤ))).Ends
      (.ok (.inl (if 0 < cmp x y then us ++ y :: x :: vs else us ++ x :: y :: vs,
        ((us.length + 1 : ℕ) : ℤ)))) := by
  have hsucc : (intAdd us.length 1).Ends (.ok ((us.length + 1 : ℕ) : ℤ)) :=
    intAdd_ends (by omega) (by omega) (by omega)
  have hx : (us ++ x :: y :: vs)[us.length]? = some x := by simp
  have hy : (us ++ x :: y :: vs)[us.length + 1]? = some y := by simp
  rw [bubblePassBody, if_pos hgo]
  refine hsucc.bind ?_
  rw [toSize_of_lt (by omega), toSize_of_lt (by omega)]
  refine (load_ends hx).bind ((load_ends hy).bind ?_)
  by_cases h : 0 < cmp x y
  · rw [if_pos h, if_pos h]
    exact (swap_ends us x [] y vs).bind (hsucc.bind (by simp))
  · rw [if_neg h, if_neg h]
    exact (Comp.ends_pure.2 rfl).bind (hsucc.bind (by simp))

/-- The inner loop carries the element at `start` on, up to the place `end`. -/
lemma bubblePass_ends (hn : us.length + ws.length < 2 ^ 31) :
    (Comp.loop (bubblePassBody cmp ((us.length + ws.length : ℕ) : ℤ))
      (us ++ x :: (ws ++ vs), (us.length : ℤ))).Ends
      (.ok (us ++ ((bubble cmp x ws).1 ++ (bubble cmp x ws).2 :: vs))) := by
  induction ws generalizing us x with
  | nil =>
      refine Comp.Ends.loop_inr ?_
      simp [bubblePassBody, bubble]
  | cons y ws ih =>
      rw [List.length_cons] at hn ⊢
      have hgo : (us.length : ℤ) < ((us.length + (ws.length + 1) : ℕ) : ℤ) := by omega
      have hround := bubblePassBody_ends hgo (by omega) cmp x y (ws ++ vs)
      -- the element that stays behind is the new last one of `us`
      have hrest : ∀ z w : α,
          (Comp.loop (bubblePassBody cmp ((us.length + (ws.length + 1) : ℕ) : ℤ))
            (us ++ z :: w :: (ws ++ vs), ((us.length + 1 : ℕ) : ℤ))).Ends
            (.ok (us ++ z :: ((bubble cmp w ws).1 ++ (bubble cmp w ws).2 :: vs))) := by
        intro z w
        have hone : (us ++ [z]).length = us.length + 1 := by simp
        have hsum : (us ++ [z]).length + ws.length = us.length + (ws.length + 1) := by omega
        have hend : (Comp.loop (bubblePassBody cmp (((us ++ [z]).length + ws.length : ℕ) : ℤ))
            (us ++ [z] ++ w :: (ws ++ vs), ((us ++ [z]).length : ℤ))).Ends
            (.ok (us ++ [z] ++ ((bubble cmp w ws).1 ++ (bubble cmp w ws).2 :: vs))) :=
          ih (hsum ▸ hn)
        rw [hsum, hone] at hend
        simpa using hend
      by_cases h : 0 < cmp x y
      · rw [if_pos h] at hround
        rw [bubble_cons_of_pos h]
        exact hround.loop_inl (hrest y x)
      · rw [if_neg h] at hround
        rw [bubble_cons_of_not_pos h]
        exact hround.loop_inl (hrest x y)

/-- The outer loop, from any point on: `vs` is in place already. -/
lemma bubbleLoop_ends (hc : TotalPreorderOn cmp Set.univ) (h : Sinking cmp xs ws vs)
    (hn : ws.length < 2 ^ 31) :
    ∃ ys, (Comp.loop (bubbleSortBody cmp) (ws ++ vs, (ws.length : ℤ) - 1)).Ends (.ok ys) ∧
      IsStableSort cmp xs ys := by
  -- by induction on the number of elements that are not
  induction hk : ws.length generalizing ws vs with
  | zero =>
      refine ⟨ws ++ vs, Comp.Ends.loop_inr ?_, h.isStableSort (by omega)⟩
      simp [bubbleSortBody]
  | succ k ih =>
      by_cases hlt : 1 ≤ k
      · obtain ⟨x, ws, rfl⟩ := List.exists_cons_of_length_eq_add_one hk
        obtain rfl : ws.length = k := by simpa using hk
        have hlen := bubble_length cmp x ws
        obtain ⟨ys, hend, hys⟩ := ih (h.pass hc) (by omega) hlen
        have hpass : (Comp.loop (bubblePassBody cmp ((([] : List α).length + ws.length : ℕ) : ℤ))
            ([] ++ x :: (ws ++ vs), (([] : List α).length : ℤ))).Ends
            (.ok ([] ++ ((bubble cmp x ws).1 ++ (bubble cmp x ws).2 :: vs))) :=
          bubblePass_ends (by simp; omega)
        have hend' : ((ws.length + 1 : ℕ) : ℤ) - 1 = ws.length := by omega
        refine ⟨ys, Comp.Ends.loop_inl
          (t := ((bubble cmp x ws).1 ++ (bubble cmp x ws).2 :: vs, (ws.length : ℤ) - 1)) ?_ hend,
          hys⟩
        rw [hend', bubbleSortBody, if_pos (show (ws.length : ℤ) ≥ 1 by omega)]
        refine Comp.Ends.bind (by simpa using hpass) ?_
        exact (intSub_ends rfl (by omega) (by omega)).bind (by simp)
      · refine ⟨ws ++ vs, Comp.Ends.loop_inr ?_, h.isStableSort (by omega)⟩
        rw [bubbleSortBody, if_neg (show ¬ ((k + 1 : ℕ) : ℤ) - 1 ≥ 1 by omega)]
        simp

/-- `bubble_sort` ends without an access outside the array and without an overflow, and
leaves its elements in nondecreasing order, those that compare equal in the order they
had. -/
theorem bubbleSort_stable (hn : xs.length ≤ 2 ^ 31 - 1) (hc : TotalPreorderOn cmp Set.univ) :
    ∃ ys, (bubbleSort cmp xs).Ends (.ok ys) ∧ IsStableSort cmp xs ys := by
  have hend : toInt (sizeSub xs.length 1) = (xs.length : ℤ) - 1 :=
    toInt_sizeSub (by omega) (by omega)
  have h := bubbleLoop_ends hc (Sinking.start cmp xs) (by omega)
  rwa [List.append_nil, ← hend] at h

/-- Pairs of a key and a value, by the key. -/
theorem bubbleSort_stable_pairs :
    ∃ ys, (bubbleSort (fun p q : ℤ × Bool => p.1 - q.1) [(2, true), (1, true), (2, false)]).Ends
        (.ok ys) ∧
      IsStableSort (fun p q => p.1 - q.1) [(2, true), (1, true), (2, false)] ys :=
  bubbleSort_stable (by decide) ⟨fun a _ b _ => by omega, fun a _ b _ d _ h₁ h₂ => by omega⟩

end SortArrary

end DemoClass
