import DemoClass.Lib.ListSort

/-!
# Sorting by exchanges

`bubble` carries the greater one of two neighbours on, so that the greatest element ends up
last.  `Sinking` is what the passes of a bubble sort preserve: nothing in front is greater
than what has sunk to the end, and elements that compare equal keep their order.
`Selecting` is the same for a selection sort, which brings one least element after the
other to the front, and which does not keep that order.
-/

namespace DemoClass

variable {α : Type}

namespace ListSort

/-- `ys` has the elements of `xs`, those that compare equal in the order of `xs`. -/
structure SameTies (c : α → α → ℤ) (xs ys : List α) : Prop where
  perm : ys.Perm xs
  ties : ∀ z, ys.filter (fun y => c z y = 0) = xs.filter (fun y => c z y = 0)

/-- Carry `x` through a list: of two neighbours the greater one goes on. -/
def bubble (c : α → α → ℤ) : α → List α → List α × α
  | x, [] => ([], x)
  | x, y :: ws =>
    if 0 < c x y then (y :: (bubble c x ws).1, (bubble c x ws).2)
    else (x :: (bubble c y ws).1, (bubble c y ws).2)

/-- `xs` on the way to being sorted from the end: `vs` is in place, `ws` is not. -/
structure Sinking (c : α → α → ℤ) (xs ws vs : List α) : Prop where
  same : SameTies c xs (ws ++ vs)
  ordered : Ordered c vs
  le : ∀ w ∈ ws, ∀ v ∈ vs, c w v ≤ 0

/-- `xs` on the way to being sorted from the front: `us` is in place, `ws` is not. -/
structure Selecting (c : α → α → ℤ) (xs us ws : List α) : Prop where
  perm : (us ++ ws).Perm xs
  ordered : Ordered c us
  le : ∀ u ∈ us, ∀ w ∈ ws, c u w ≤ 0

variable {c : α → α → ℤ} {x y m : α} {xs ys zs us vs ws : List α}

/-! ### Elements that compare equal -/

namespace SameTies

lemma refl (c : α → α → ℤ) (xs : List α) : SameTies c xs xs := ⟨List.Perm.refl xs, fun _ => rfl⟩

lemma trans (h : SameTies c xs ys) (h' : SameTies c ys zs) : SameTies c xs zs :=
  ⟨h'.perm.trans h.perm, fun z => (h'.ties z).trans (h.ties z)⟩

lemma append_right (h : SameTies c xs ys) (vs : List α) : SameTies c (xs ++ vs) (ys ++ vs) :=
  ⟨h.perm.append_right vs, fun z => by rw [List.filter_append, List.filter_append, h.ties]⟩

lemma cons (h : SameTies c xs ys) (x : α) : SameTies c (x :: xs) (x :: ys) :=
  ⟨h.perm.cons x, fun z => by rw [List.filter_cons, List.filter_cons, h.ties]⟩

/-- Two neighbours that do not compare equal. -/
lemma swap (hc : TotalPreorderOn c Set.univ) (h : 0 < c x y) (xs : List α) :
    SameTies c (x :: y :: xs) (y :: x :: xs) := by
  refine ⟨List.Perm.swap x y xs, fun z => ?_⟩
  by_cases hx : c z x = 0
  · have hy : c z y ≠ 0 := by
      intro hy
      -- what compares equal to both would make them compare equal
      have hxz : c x z ≤ 0 := (hc.nonneg_iff trivial trivial).1 hx.ge
      exact absurd (hc.trans x trivial z trivial y trivial hxz hy.le) (not_le.2 h)
    simp [hx, hy]
  · simp [List.filter_cons, hx]

lemma isStableSort (h : SameTies c xs ys) (ho : Ordered c ys) : IsStableSort c xs ys :=
  ⟨h.perm, ho, h.ties⟩

end SameTies

/-! ### Bubble sort -/

lemma bubble_cons_of_pos (h : 0 < c x y) (ws : List α) :
    bubble c x (y :: ws) = (y :: (bubble c x ws).1, (bubble c x ws).2) := by simp [bubble, h]

lemma bubble_cons_of_not_pos (h : ¬ 0 < c x y) (ws : List α) :
    bubble c x (y :: ws) = (x :: (bubble c y ws).1, (bubble c y ws).2) := by simp [bubble, h]

lemma bubble_sameTies (hc : TotalPreorderOn c Set.univ) (x : α) (ws : List α) :
    SameTies c (x :: ws) ((bubble c x ws).1 ++ [(bubble c x ws).2]) := by
  induction ws generalizing x with
  | nil => exact SameTies.refl c [x]
  | cons y ws ih =>
      by_cases h : 0 < c x y
      · rw [bubble_cons_of_pos h]
        exact (SameTies.swap hc h ws).trans ((ih x).cons y)
      · rw [bubble_cons_of_not_pos h]
        exact (ih y).cons x

lemma bubble_length (c : α → α → ℤ) (x : α) (ws : List α) :
    (bubble c x ws).1.length = ws.length := by
  induction ws generalizing x with
  | nil => rfl
  | cons y ws ih =>
      by_cases h : 0 < c x y
      · simp [bubble_cons_of_pos h, ih]
      · simp [bubble_cons_of_not_pos h, ih]

/-- What is carried to the end is not less than what it started with. -/
lemma le_bubble (hc : TotalPreorderOn c Set.univ) (x : α) (ws : List α) :
    c x (bubble c x ws).2 ≤ 0 := by
  induction ws generalizing x with
  | nil => exact hc.refl x
  | cons y ws ih =>
      by_cases h : 0 < c x y
      · rw [bubble_cons_of_pos h]
        exact ih x
      · rw [bubble_cons_of_not_pos h]
        exact hc.trans x trivial y trivial _ trivial (not_lt.1 h) (ih y)

/-- What is carried to the end is a greatest element. -/
lemma bubble_le (hc : TotalPreorderOn c Set.univ) (x : α) (ws : List α) :
    ∀ u ∈ (bubble c x ws).1, c u (bubble c x ws).2 ≤ 0 := by
  induction ws generalizing x with
  | nil => simp [bubble]
  | cons y ws ih =>
      intro u hu
      by_cases h : 0 < c x y
      · rw [bubble_cons_of_pos h] at hu ⊢
        rcases List.mem_cons.1 hu with rfl | hu
        · have hux : c u x ≤ 0 := ((hc.neg_iff u trivial x trivial).2 h).le
          exact hc.trans u trivial x trivial _ trivial hux (le_bubble hc x ws)
        · exact ih x u hu
      · rw [bubble_cons_of_not_pos h] at hu ⊢
        rcases List.mem_cons.1 hu with rfl | hu
        · exact hc.trans u trivial y trivial _ trivial (not_lt.1 h) (le_bubble hc y ws)
        · exact ih y u hu

namespace Sinking

lemma start (c : α → α → ℤ) (xs : List α) : Sinking c xs xs [] :=
  ⟨by simpa using SameTies.refl c xs, List.Pairwise.nil, by simp⟩

/-- One pass brings one element more into its place. -/
lemma pass (hc : TotalPreorderOn c Set.univ) (h : Sinking c xs (x :: ws) vs) :
    Sinking c xs (bubble c x ws).1 ((bubble c x ws).2 :: vs) := by
  have hb := bubble_sameTies hc x ws
  have hmem : ∀ u, u ∈ (bubble c x ws).1 ++ [(bubble c x ws).2] → u ∈ x :: ws :=
    fun u hu => hb.perm.mem_iff.1 hu
  refine ⟨?_, List.pairwise_cons.2 ⟨fun v hv => ?_, h.ordered⟩, fun u hu v hv => ?_⟩
  · rw [← List.singleton_append, ← List.append_assoc]
    exact h.same.trans (hb.append_right vs)
  · exact h.le _ (hmem _ (by simp)) v hv
  · rcases List.mem_cons.1 hv with rfl | hv
    · exact bubble_le hc x ws u hu
    · exact h.le u (hmem u (by simp [hu])) v hv

/-- With at most one element in front everything is in its place. -/
lemma isStableSort (h : Sinking c xs ws vs) (hlen : ws.length ≤ 1) :
    IsStableSort c xs (ws ++ vs) := by
  refine h.same.isStableSort (List.pairwise_append.2 ⟨?_, h.ordered, h.le⟩)
  rcases ws with _ | ⟨w, _ | ⟨v, ws⟩⟩
  · exact List.Pairwise.nil
  · exact List.pairwise_singleton _ w
  · simp at hlen

end Sinking

/-! ### Selection sort -/

/-- Exchanging the first element with another one. -/
lemma exchange_perm (x : α) (ms : List α) (y : α) (vs : List α) :
    (y :: (ms ++ x :: vs)).Perm (x :: (ms ++ y :: vs)) := by
  have hx : (y :: (ms ++ x :: vs)).Perm (y :: x :: (ms ++ vs)) := List.perm_middle.cons y
  have hy : (x :: (ms ++ y :: vs)).Perm (x :: y :: (ms ++ vs)) := List.perm_middle.cons x
  exact hx.trans ((List.Perm.swap x y _).trans hy.symm)

namespace Selecting

lemma start (c : α → α → ℤ) (xs : List α) : Selecting c xs [] xs :=
  ⟨List.Perm.refl xs, List.Pairwise.nil, by simp⟩

/-- A least element of what is left goes behind what is in place. -/
lemma take (h : Selecting c xs us (m :: ws)) (hm : ∀ w ∈ ws, c m w ≤ 0) :
    Selecting c xs (us ++ [m]) ws := by
  refine ⟨by simpa using h.perm, List.pairwise_append.2 ⟨h.ordered, by simp, fun u hu v hv => ?_⟩,
    fun u hu w hw => ?_⟩
  · rw [List.mem_singleton.1 hv]
    exact h.le u hu m (by simp)
  · rcases List.mem_append.1 hu with hu | hu
    · exact h.le u hu w (by simp [hw])
    · rw [List.mem_singleton.1 hu]
      exact hm w hw

/-- What is left may be rearranged. -/
lemma perm_right (h : Selecting c xs us ws) (hp : vs.Perm ws) : Selecting c xs us vs :=
  ⟨(hp.append_left us).trans h.perm, h.ordered, fun u hu w hw => h.le u hu w (hp.mem_iff.1 hw)⟩

/-- With at most one element left everything is in its place. -/
lemma done (h : Selecting c xs us ws) (hlen : ws.length ≤ 1) :
    (us ++ ws).Perm xs ∧ Ordered c (us ++ ws) := by
  refine ⟨h.perm, List.pairwise_append.2 ⟨h.ordered, ?_, h.le⟩⟩
  rcases ws with _ | ⟨w, _ | ⟨v, ws⟩⟩
  · exact List.Pairwise.nil
  · exact List.pairwise_singleton _ w
  · simp at hlen

end Selecting

end ListSort

end DemoClass
