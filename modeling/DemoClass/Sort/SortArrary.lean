import DemoClass.Lib.Comp
import DemoClass.Lib.ListSort
import DemoClass.Lib.Shuffle
import Mathlib.Algebra.Order.Ring.Int
import Mathlib.Algebra.Order.Ring.Nat

/-!
# The arrays of `sort_arrary.c`

The functions sort `nmemb` elements from `base` on.  Element `n` is the `size` bytes at
`NtoPTR(n)`, which are only copied as a whole and handed to `cmp`, so it is one entry of
a list.  An access outside the array faults, and so does an `int` that overflows.
-/

namespace DemoClass

open ListSort

namespace SortArrary

variable {α : Type}

/-- What can go wrong in a sort. -/
inductive Fault where
  | outOfBounds
  | overflow
deriving DecidableEq, Repr

/-- The element at `NtoPTR(n)`. -/
def load (a : List α) (n : ℕ) : Comp Fault α :=
  match a[n]? with
  | some x => pure x
  | none => Comp.fault .outOfBounds

/-- `memcpy(NtoPTR(n), &x, size)` -/
def store (a : List α) (n : ℕ) (x : α) : Comp Fault (List α) :=
  if n < a.length then pure (a.set n x) else Comp.fault .outOfBounds

/-- `swap`, on the elements at two places -/
def swap (a : List α) (i j : ℕ) : Comp Fault (List α) := do
  let tmp ← load a i
  let y ← load a j
  let a ← store a i y
  store a j tmp

/-- `m - n` in `size_t` -/
def sizeSub (m n : ℕ) : ℕ := if n ≤ m then m - n else m + 2 ^ 64 - n

/-- `m + n` in `size_t` -/
def sizeAdd (m n : ℕ) : ℕ := (m + n) % 2 ^ 64

/-- An `int` as a `size_t`. -/
def toSize (k : ℤ) : ℕ := (k % 2 ^ 64).toNat

/-- A `size_t` as an `int`. -/
def toInt (n : ℕ) : ℤ := (n : ℤ).bmod (2 ^ 32)

/-- `k + l` in `int` -/
def intAdd (k l : ℤ) : Comp Fault ℤ :=
  if -2 ^ 31 ≤ k + l ∧ k + l < 2 ^ 31 then pure (k + l) else Comp.fault .overflow

/-- `k - l` in `int` -/
def intSub (k l : ℤ) : Comp Fault ℤ := intAdd k (-l)

variable {c : α → α → ℤ} {a a' : List α} {lo mid hi n : ℕ} {x p : α}

@[simp] lemma sizeSub_of_le {m : ℕ} (h : n ≤ m) : sizeSub m n = m - n := if_pos h

lemma toSize_of_lt (h : n < 2 ^ 64) : toSize n = n := by
  unfold toSize
  omega

lemma toInt_of_lt (h : n < 2 ^ 31) : toInt n = n := by
  unfold toInt
  rw [Int.bmod_def]
  omega

/-- A difference that wraps is negative when it is an `int` again. -/
lemma toInt_sizeSub {m : ℕ} (hm : m < 2 ^ 31) (hn : n < 2 ^ 31) :
    toInt (sizeSub m n) = (m : ℤ) - n := by
  unfold toInt sizeSub
  rw [Int.bmod_def]
  split_ifs <;> omega

/-- A negative `int` wraps, and the sum with it wraps back. -/
lemma sizeAdd_toSize_sub {m : ℕ} (hm : m < 2 ^ 31) : sizeAdd (toSize ((m : ℤ) - n)) n = m := by
  unfold sizeAdd toSize
  omega

lemma intAdd_ends {k l m : ℤ} (h : k + l = m) (hlo : -2 ^ 31 ≤ m) (hhi : m < 2 ^ 31) :
    (intAdd k l).Ends (.ok m) := by
  rw [intAdd, if_pos (by omega), h]
  simp

lemma intSub_ends {k l m : ℤ} (h : k - l = m) (hlo : -2 ^ 31 ≤ m) (hhi : m < 2 ^ 31) :
    (intSub k l).Ends (.ok m) := by
  have hadd : k + -l = m := by omega
  exact intAdd_ends hadd hlo hhi

lemma load_ends (h : a[n]? = some x) : (load a n).Ends (.ok x) := by simp [load, h]

lemma store_ends (h : n < a.length) (x : α) : (store a n x).Ends (.ok (a.set n x)) := by
  simp [store, h]

lemma exists_getElem?_eq (h : n < a.length) : ∃ x, a[n]? = some x :=
  ⟨a[n], List.getElem?_eq_getElem h⟩

lemma swap_ends (us : List α) (x : α) (ms : List α) (y : α) (vs : List α) :
    (swap (us ++ x :: (ms ++ y :: vs)) us.length (us.length + 1 + ms.length)).Ends
      (.ok (us ++ y :: (ms ++ x :: vs))) := by
  have hsplit : us ++ x :: (ms ++ y :: vs) = (us ++ x :: ms) ++ y :: vs := by simp
  have hlen : us.length + 1 + ms.length = (us ++ x :: ms).length := by
    simp only [List.length_append, List.length_cons]
    omega
  have hx : (us ++ x :: (ms ++ y :: vs))[us.length]? = some x := by simp
  have hy : (us ++ x :: (ms ++ y :: vs))[us.length + 1 + ms.length]? = some y := by
    rw [hsplit, hlen]
    simp
  have hset : ((us ++ x :: (ms ++ y :: vs)).set us.length y).set (us.length + 1 + ms.length) x =
      us ++ y :: (ms ++ x :: vs) := by
    have hlen' : us.length + 1 + ms.length = (us ++ y :: ms).length := by simp [hlen]
    have hsplit' : us ++ y :: (ms ++ y :: vs) = (us ++ y :: ms) ++ y :: vs := by simp
    rw [List.set_append_right _ _ (Nat.le_refl _), Nat.sub_self, List.set_cons_zero, hsplit', hlen',
      List.set_append_right _ _ (Nat.le_refl _), Nat.sub_self, List.set_cons_zero]
    simp
  rw [← hset]
  refine (load_ends hx).bind ((load_ends hy).bind ((store_ends ?_ y).bind (store_ends ?_ x)))
  · simp
  · simp only [List.length_set, List.length_append, List.length_cons]
    omega

/-! ### Parts in order -/

/-- The elements from `lo` on and below `hi` have the property. -/
def All (P : α → Prop) (lo hi : ℕ) (a : List α) : Prop :=
  ∀ i, lo ≤ i → i < hi → ∀ x, a[i]? = some x → P x

/-- The elements from `lo` on and below `hi` are in nondecreasing order. -/
def OrderedIn (c : α → α → ℤ) (lo hi : ℕ) (a : List α) : Prop :=
  ∀ i j, lo ≤ i → i < j → j < hi → ∀ x y, a[i]? = some x → a[j]? = some y → c x y ≤ 0

lemma All.congr {P : α → Prop} (h : All P lo hi a)
    (ha : ∀ i, lo ≤ i → i < hi → a'[i]? = a[i]?) : All P lo hi a' :=
  fun i h₁ h₂ x hx => h i h₁ h₂ x (by rw [← ha i h₁ h₂, hx])

lemma All.shuffle {P : α → Prop} (h : All P lo hi a) (hs : Shuffle lo hi (a[·]?) (a'[·]?)) :
    All P lo hi a' :=
  hs.forall_mem (P := fun o => ∀ x, o = some x → P x) h

/-- A part whose elements have the property, and one more. -/
lemma All.succ {P : α → Prop} (h : All P lo hi a) (hx : a[hi]? = some x) (hP : P x) :
    All P lo (hi + 1) a := by
  intro i h₁ h₂ y hy
  by_cases hi' : i = hi
  · rw [hi', hx] at hy
    rwa [← Option.some.inj hy]
  · exact h i h₁ (by omega) y hy

/-- A part whose elements have the property, and one before. -/
lemma All.pred {P : α → Prop} (h : All P (lo + 1) hi a) (hx : a[lo]? = some x) (hP : P x) :
    All P lo hi a := by
  intro i h₁ h₂ y hy
  by_cases hi' : i = lo
  · rw [hi', hx] at hy
    rwa [← Option.some.inj hy]
  · exact h i (by omega) h₂ y hy

lemma OrderedIn.congr (h : OrderedIn c lo hi a)
    (ha : ∀ i, lo ≤ i → i < hi → a'[i]? = a[i]?) : OrderedIn c lo hi a' := by
  intro i j h₁ h₂ h₃ x y hx hy
  refine h i j h₁ h₂ h₃ x y ?_ ?_
  · rw [← ha i h₁ (by omega), hx]
  · rw [← ha j (by omega) h₃, hy]

lemma OrderedIn.of_le_succ (h : hi ≤ lo + 1) : OrderedIn c lo hi a :=
  fun _ _ h₁ h₂ h₃ => absurd h₃ (by omega)

/-- Two parts in order, the first with elements up to the one between them, the second
with elements from it on. -/
lemma OrderedIn.append (hc : TotalPreorderOn c {x | x ∈ a}) (hp : a[mid]? = some p)
    (h₁ : OrderedIn c lo mid a) (h₂ : OrderedIn c (mid + 1) hi a)
    (hle : All (fun x => c x p ≤ 0) lo mid a) (hge : All (fun x => 0 ≤ c x p) (mid + 1) hi a) :
    OrderedIn c lo hi a := by
  intro i j hi₁ hij hj x y hx hy
  have hxm : x ∈ a := List.mem_of_getElem? hx
  have hym : y ∈ a := List.mem_of_getElem? hy
  have hpm : p ∈ a := List.mem_of_getElem? hp
  -- every element is on the left of the middle, on it, or on its right
  have hle' : i < mid + 1 → c x p ≤ 0 := by
    intro him
    by_cases hi' : i = mid
    · rw [hi', hp] at hx
      obtain rfl := Option.some.inj hx
      by_contra hlt
      have := hc.neg_iff p hpm p hpm
      omega
    · exact hle i hi₁ (by omega) x hx
  have hge' : mid < j → c p y ≤ 0 := by
    intro hmj
    exact (hc.nonneg_iff hym hpm).1 (hge j (by omega) hj y hy)
  by_cases hjm : j < mid
  · exact h₁ i j hi₁ hij hjm x y hx hy
  by_cases him : mid < i
  · exact h₂ i j (by omega) hij hj x y hx hy
  by_cases hjm' : j = mid
  · rw [hjm', hp] at hy
    obtain rfl := Option.some.inj hy
    exact hle' (by omega)
  · exact hc.trans x hxm p hpm y hym (hle' (by omega)) (hge' (by omega))

lemma OrderedIn.ordered (h : OrderedIn c 0 a.length a) : Ordered c a := by
  refine List.pairwise_iff_getElem.2 fun i j hi hj hij => ?_
  exact h i j (Nat.zero_le i) hij hj _ _ (List.getElem?_eq_getElem hi) (List.getElem?_eq_getElem hj)

end SortArrary

end DemoClass
