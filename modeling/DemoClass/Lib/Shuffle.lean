import Mathlib.Algebra.Group.End
import Mathlib.Data.List.Nodup
import Mathlib.Data.List.Perm.Subperm
import Mathlib.Logic.Equiv.Basic

/-!
# Rearranging a part of a sequence

`Shuffle lo hi f g` says that `g` has the entries of `f`, and that only the places from
`lo` on and below `hi` have changed.  Shuffles compose, exchanging two entries is one
(`Shuffle.swap`), and what holds of all entries of the part goes on to hold of them
(`Shuffle.forall_mem`).  A shuffle of the entries of a list is a permutation of the list
(`Shuffle.perm`).
-/

namespace DemoClass

variable {α β : Type}

/-- `g` is `f` with the entries from `lo` on and below `hi` rearranged. -/
def Shuffle (lo hi : ℕ) (f g : ℕ → β) : Prop :=
  ∃ σ : Equiv.Perm ℕ, (∀ i, i < lo ∨ hi ≤ i → σ i = i) ∧ ∀ i, g i = f (σ i)

namespace Shuffle

variable {lo hi lo' hi' i j : ℕ} {f g h : ℕ → β}

lemma refl (lo hi : ℕ) (f : ℕ → β) : Shuffle lo hi f f := ⟨1, fun _ _ => rfl, fun _ => rfl⟩

lemma trans (hfg : Shuffle lo hi f g) (hgh : Shuffle lo hi g h) : Shuffle lo hi f h := by
  obtain ⟨σ, hσ, hg⟩ := hfg
  obtain ⟨τ, hτ, hh⟩ := hgh
  refine ⟨σ * τ, fun i hi => ?_, fun i => ?_⟩
  · rw [Equiv.Perm.mul_apply, hτ i hi, hσ i hi]
  · rw [hh, hg, Equiv.Perm.mul_apply]

lemma mono (hfg : Shuffle lo hi f g) (hlo : lo' ≤ lo) (hhi : hi ≤ hi') : Shuffle lo' hi' f g := by
  obtain ⟨σ, hσ, hg⟩ := hfg
  exact ⟨σ, fun i hi => hσ i (by omega), hg⟩

/-- Exchanging two entries. -/
lemma swap (hi₁ : lo ≤ i) (hi₂ : i < hi) (hj₁ : lo ≤ j) (hj₂ : j < hi) (hij : g i = f j)
    (hji : g j = f i) (hne : ∀ k, k ≠ i → k ≠ j → g k = f k) : Shuffle lo hi f g := by
  refine ⟨Equiv.swap i j, fun k hk => Equiv.swap_apply_of_ne_of_ne ?_ ?_, fun k => ?_⟩
  · omega
  · omega
  · by_cases hki : k = i
    · rw [hki, Equiv.swap_apply_left, hij]
    · by_cases hkj : k = j
      · rw [hkj, Equiv.swap_apply_right, hji]
      · rw [Equiv.swap_apply_of_ne_of_ne hki hkj, hne k hki hkj]

lemma eq_outside (hfg : Shuffle lo hi f g) (h : i < lo ∨ hi ≤ i) : g i = f i := by
  obtain ⟨σ, hσ, hg⟩ := hfg
  rw [hg, hσ i h]

/-- An entry of the part comes from the part. -/
lemma exists_eq (hfg : Shuffle lo hi f g) (h₁ : lo ≤ i) (h₂ : i < hi) :
    ∃ j, lo ≤ j ∧ j < hi ∧ g i = f j := by
  obtain ⟨σ, hσ, hg⟩ := hfg
  by_contra hout
  have hj : σ i < lo ∨ hi ≤ σ i := by
    by_contra hin
    exact hout ⟨σ i, by omega, by omega, hg i⟩
  -- then `σ` has two arguments with the same value
  have heq : σ i = i := σ.injective (hσ _ hj)
  omega

/-- What holds of the entries of the part goes on to hold of them. -/
lemma forall_mem (hfg : Shuffle lo hi f g) {P : β → Prop}
    (hf : ∀ i, lo ≤ i → i < hi → P (f i)) : ∀ i, lo ≤ i → i < hi → P (g i) := by
  intro i h₁ h₂
  obtain ⟨j, hj₁, hj₂, he⟩ := hfg.exists_eq h₁ h₂
  rw [he]
  exact hf j hj₁ hj₂

/-! ### Lists -/

variable {xs ys : List α}

/-- Moving an entry `y` from the place `j` to the place `i`, when `i` is seen as holding `x`
before and `j` as holding it afterwards. -/
lemma set_set {x y : α} (hi₁ : lo ≤ i) (hi₂ : i < hi) (hj₁ : lo ≤ j) (hj₂ : j < hi)
    (hij : i ≠ j) (hi' : i < xs.length) (hy : xs[j]? = some y) :
    Shuffle lo hi ((xs.set i x)[·]?) (((xs.set i y).set j x)[·]?) := by
  have hj' : j < xs.length := (List.getElem?_eq_some_iff.1 hy).1
  refine swap hi₁ hi₂ hj₁ hj₂ ?_ ?_ fun k hki hkj => ?_
  · simp [hij, hij.symm, hi', hy]
  · simp [hi', hj']
  · simp [hki.symm, hkj.symm]

lemma length_eq (h : Shuffle lo hi (xs[·]?) (ys[·]?)) (hhi : hi ≤ xs.length) :
    ys.length = xs.length := by
  refine le_antisymm ?_ ?_
  · have he : ys[xs.length]? = xs[xs.length]? := h.eq_outside (Or.inr hhi)
    rw [List.getElem?_eq_none (Nat.le_refl _), List.getElem?_eq_none_iff] at he
    exact he
  · by_contra hlt
    have hnone : ys[ys.length]? = none := List.getElem?_eq_none (Nat.le_refl _)
    by_cases hin : lo ≤ ys.length ∧ ys.length < hi
    · obtain ⟨j, -, hj, he⟩ := h.exists_eq hin.1 hin.2
      rw [show ys[ys.length]? = xs[j]? from he, List.getElem?_eq_none_iff] at hnone
      omega
    · rw [show ys[ys.length]? = xs[ys.length]? from h.eq_outside (by omega),
        List.getElem?_eq_none_iff] at hnone
      omega

/-- The entries of a list, by their places. -/
lemma map_some_eq (xs : List α) : xs.map some = (List.range xs.length).map (xs[·]?) := by
  refine List.ext_getElem (by simp) fun i h₁ h₂ => ?_
  simp only [List.length_map] at h₁
  simp [List.getElem?_eq_getElem h₁]

/-- A shuffle of the entries of a list is a permutation of it. -/
lemma perm (h : Shuffle lo hi (xs[·]?) (ys[·]?)) (hhi : hi ≤ xs.length) : ys.Perm xs := by
  have hlen := h.length_eq hhi
  obtain ⟨σ, hσ, hys⟩ := h
  have hrange : ∀ i, σ i < xs.length ↔ i < xs.length := by
    intro i
    have he : ys[i]? = xs[σ i]? := hys i
    -- both places are empty, or none is
    have hnone : xs.length ≤ σ i ↔ ys.length ≤ i := by
      rw [← List.getElem?_eq_none_iff, ← he, List.getElem?_eq_none_iff]
    omega
  have hperm : ((List.range xs.length).map σ).Perm (List.range xs.length) := by
    refine (List.perm_ext_iff_of_nodup (List.Nodup.map σ.injective List.nodup_range)
      List.nodup_range).2 ?_
    intro j
    simp only [List.mem_map, List.mem_range]
    constructor
    · rintro ⟨i, hi, rfl⟩
      exact (hrange i).2 hi
    · intro hj
      refine ⟨σ.symm j, ?_, σ.apply_symm_apply j⟩
      rwa [← hrange, σ.apply_symm_apply]
  have hmap : (ys.map some).Perm (xs.map some) := by
    rw [map_some_eq ys, map_some_eq xs, hlen, List.map_congr_left fun i _ => hys i]
    have h := hperm.map (xs[·]?)
    rwa [List.map_map] at h
  exact (List.map_perm_map_iff (Option.some_injective α)).1 hmap

end Shuffle

end DemoClass
