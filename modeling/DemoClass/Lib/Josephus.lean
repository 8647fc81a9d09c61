import Mathlib.Data.List.Rotate

/-!
# The Josephus process

The members of a circle are counted round and round from its first member on, and every
`step`-th one leaves it.  `josephus step xs` is the order in which the members of the
circle `xs` leave it; the last one is the survivor.  `josephusFrom step j xs` is the order
when `j` members have been counted since the last one left: counting one more either moves
it behind the others (`josephusFrom_count`) or makes it leave (`josephusFrom_leave`).
-/

namespace DemoClass

variable {α : Type}

/-- The order in which the members of the circle leave it, with `j` counted since the last
one left. -/
def josephusFrom (step j : ℕ) (xs : List α) : List α :=
  match _h : xs.rotate (step - 1 - j) with
  | [] => []
  | y :: ys => y :: josephusFrom step 0 ys
termination_by xs.length
decreasing_by
  have hlen := congrArg List.length _h
  simp only [List.length_rotate, List.length_cons] at hlen
  omega

/-- The order in which the members of the circle leave it. -/
def josephus (step : ℕ) (xs : List α) : List α := josephusFrom step 0 xs

variable {step j : ℕ} {x : α} {xs ys : List α}

lemma josephusFrom_of_nil (step j : ℕ) : josephusFrom step j ([] : List α) = [] := by
  rw [josephusFrom]
  split
  · rfl
  · next h => simp at h

lemma josephusFrom_of_rotate (h : xs.rotate (step - 1 - j) = x :: ys) :
    josephusFrom step j xs = x :: josephusFrom step 0 ys := by
  rw [josephusFrom]
  split
  · next h' => simp [h] at h'
  · next y zs h' =>
      obtain ⟨rfl, rfl⟩ : x = y ∧ ys = zs := by simpa [h] using h'
      rfl

/-- A member that is counted and stays moves behind the others. -/
lemma josephusFrom_count (h : j + 1 < step) :
    josephusFrom step j (x :: xs) = josephusFrom step (j + 1) (xs ++ [x]) := by
  have hsucc : step - 1 - j = step - 1 - (j + 1) + 1 := by omega
  have hrot : (x :: xs).rotate (step - 1 - j) = (xs ++ [x]).rotate (step - 1 - (j + 1)) := by
    rw [hsucc, List.rotate_cons_succ]
  rcases hcase : (xs ++ [x]).rotate (step - 1 - (j + 1)) with _ | ⟨y, ys⟩
  · simp at hcase
  · rw [josephusFrom_of_rotate hcase, josephusFrom_of_rotate (hrot.trans hcase)]

/-- The `step`-th member counted leaves. -/
lemma josephusFrom_leave (h : j + 1 = step) :
    josephusFrom step j (x :: xs) = x :: josephusFrom step 0 xs := by
  refine josephusFrom_of_rotate ?_
  rw [show step - 1 - j = 0 by omega, List.rotate_zero]

/-- The survivor. -/
lemma josephusFrom_singleton (step j : ℕ) (x : α) : josephusFrom step j [x] = [x] := by
  rw [josephusFrom_of_rotate (List.rotate_singleton x _), josephusFrom_of_nil]

end DemoClass
