import Mathlib.InformationTheory.Coding.KraftMcMillan
import Mathlib.Algebra.BigOperators.Group.Finset.Basic
import Mathlib.Algebra.Order.BigOperators.Group.Finset
import Mathlib.Data.Finset.Max
import Mathlib.Logic.Equiv.Basic
import Mathlib.Tactic.Ring

/-!
# Merging the two lightest: a lower bound for prefix codes

A greedy run on a multiset of weights repeatedly replaces the two lightest weights
by their sum; its cost is the total of the sums (`Merges`).  No prefix code over
symbols with these weights has a smaller encoded size (`Merges.le_sum`).

The argument is about code lengths alone, through the Kraft inequality (which
prefix codes satisfy, `kraft_of_prefixFree`).  Lengths that satisfy it can be
shortened until the greatest length occurs twice (`Kraft.exists_two_longest`),
exchanged so that the two lightest symbols have it (`Kraft.exists_exchange`), and
these two symbols can then be merged into one (`Kraft.merge`).
-/

namespace DemoClass

open Finset

variable {ι : Type} [DecidableEq ι]

/-- The lengths `l` of the symbols `t` satisfy the Kraft inequality, written with
the common denominator `2 ^ M`. -/
structure Kraft (M : ℕ) (t : Finset ι) (l : ι → ℕ) : Prop where
  le : ∀ i ∈ t, l i ≤ M
  sum_le : ∑ i ∈ t, 2 ^ (M - l i) ≤ 2 ^ M

namespace Kraft

variable {M : ℕ} {t : Finset ι} {l w : ι → ℕ} {i j p : ι}

/-- With two symbols no length is zero. -/
lemma pos (h : Kraft M t l) (hi : i ∈ t) (hj : j ∈ t) (hij : i ≠ j) : 0 < l i := by
  by_contra hl
  -- a word of length zero would use up the whole sum
  have hl0 : l i = 0 := by omega
  have hsum : ∑ x ∈ ({i, j} : Finset ι), 2 ^ (M - l x) ≤ 2 ^ M := by
    refine (sum_le_sum_of_subset (f := fun x => 2 ^ (M - l x)) ?_).trans h.sum_le
    intro x hx
    rcases mem_insert.1 hx with rfl | hx
    · exact hi
    · exact (mem_singleton.1 hx) ▸ hj
  rw [sum_pair hij, hl0] at hsum
  have : 0 < 2 ^ (M - l j) := by positivity
  simp only [Nat.sub_zero] at hsum
  omega

/-- A greatest length that occurs only once can be made shorter by one. -/
lemma shorten (h : Kraft M t l) (hp : p ∈ t) (hpos : 0 < l p)
    (hlt : ∀ i ∈ t, i ≠ p → l i < l p) : Kraft M t (Function.update l p (l p - 1)) := by
  have hpM : l p ≤ M := h.le p hp
  refine ⟨?_, ?_⟩
  · intro i hi
    by_cases hip : i = p
    · subst hip
      simp only [Function.update_self]
      omega
    · simpa [Function.update_of_ne hip] using h.le i hi
  · have hother : ∀ i ∈ t.erase p, 2 ^ (M - l i) = 2 ^ (M - l p + 1) * 2 ^ (l p - 1 - l i) := by
      intro i hi
      obtain ⟨hip, hit⟩ := mem_erase.1 hi
      have := hlt i hit hip
      rw [← pow_add]
      congr 1
      omega
    have hM : 2 ^ M = 2 ^ (M - l p + 1) * 2 ^ (l p - 1) := by
      rw [← pow_add]
      congr 1
      omega
    have hnew : ∀ i ∈ t.erase p,
        2 ^ (M - Function.update l p (l p - 1) i) = 2 ^ (M - l i) := by
      intro i hi
      rw [Function.update_of_ne (mem_erase.1 hi).1]
    have hsum := h.sum_le
    rw [← add_sum_erase t _ hp, sum_congr rfl hother, ← mul_sum, hM] at hsum
    rw [← add_sum_erase t _ hp, sum_congr rfl hnew, sum_congr rfl hother, ← mul_sum, hM,
      Function.update_self]
    have hexp : M - (l p - 1) = M - l p + 1 := by omega
    -- all terms but the one of `p` are multiples of `2 ^ (M - l p + 1)`
    have hlt' : 2 ^ (M - l p + 1) * ∑ i ∈ t.erase p, 2 ^ (l p - 1 - l i) <
        2 ^ (M - l p + 1) * 2 ^ (l p - 1) := by
      have : 0 < 2 ^ (M - l p) := by positivity
      omega
    have hk := Nat.lt_of_mul_lt_mul_left hlt'
    rw [hexp]
    calc 2 ^ (M - l p + 1) + 2 ^ (M - l p + 1) * ∑ i ∈ t.erase p, 2 ^ (l p - 1 - l i)
        = 2 ^ (M - l p + 1) * (∑ i ∈ t.erase p, 2 ^ (l p - 1 - l i) + 1) := by ring
      _ ≤ 2 ^ (M - l p + 1) * 2 ^ (l p - 1) := Nat.mul_le_mul_left _ hk

/-- The lengths can be shortened until the greatest length occurs twice. -/
lemma exists_two_longest (h : Kraft M t l) (hi : i ∈ t) (hj : j ∈ t) (hij : i ≠ j) :
    ∃ l', Kraft M t l' ∧ (∀ x ∈ t, l' x ≤ l x) ∧
      ∃ p ∈ t, ∃ q ∈ t, p ≠ q ∧ l' q = l' p ∧ ∀ x ∈ t, l' x ≤ l' p := by
  induction hn : ∑ x ∈ t, l x using Nat.strong_induction_on generalizing l with
  | _ n ih =>
      obtain ⟨p, hp, hmax⟩ := t.exists_max_image l ⟨i, hi⟩
      by_cases hq : ∃ q ∈ t, p ≠ q ∧ l q = l p
      · obtain ⟨q, hq, hpq, he⟩ := hq
        exact ⟨l, h, fun _ _ => le_rfl, p, hp, q, hq, hpq, he, hmax⟩
      · have hlt : ∀ x ∈ t, x ≠ p → l x < l p := by
          intro x hx hxp
          have hne : l x ≠ l p := fun he => hq ⟨x, hx, Ne.symm hxp, he⟩
          have := hmax x hx
          omega
        have hpos : 0 < l p := by
          obtain ⟨q, hq, hpq⟩ : ∃ q ∈ t, p ≠ q := by
            by_cases hpi : p = i
            · exact ⟨j, hj, hpi ▸ hij⟩
            · exact ⟨i, hi, hpi⟩
          exact h.pos hp hq hpq
        have hle : ∀ x ∈ t, Function.update l p (l p - 1) x ≤ l x := by
          intro x _
          by_cases hxp : x = p
          · subst hxp
            simp
          · simp [Function.update_of_ne hxp]
        -- the induction is on the sum of the lengths
        have hsum : ∑ x ∈ t, Function.update l p (l p - 1) x < n := by
          rw [← hn]
          refine sum_lt_sum hle ⟨p, hp, ?_⟩
          simp only [Function.update_self]
          omega
        obtain ⟨l', hl', hle', hrest⟩ := ih _ hsum (h.shorten hp hpos hlt) rfl
        exact ⟨l', hl', fun x hx => (hle' x hx).trans (hle x hx), hrest⟩

/-! ### Exchanging lengths -/

lemma sum_swap (f : ι → ℕ) (hi : i ∈ t) (hp : p ∈ t) :
    ∑ x ∈ t, f (Equiv.swap i p x) = ∑ x ∈ t, f x := by
  refine sum_equiv (Equiv.swap i p) ?_ fun _ _ => rfl
  intro x
  by_cases hxi : x = i
  · subst hxi
    simp [hi, hp]
  · by_cases hxp : x = p
    · subst hxp
      simp [hi, hp]
    · rw [Equiv.swap_apply_of_ne_of_ne hxi hxp]

lemma swap (h : Kraft M t l) (hi : i ∈ t) (hp : p ∈ t) :
    Kraft M t fun x => l (Equiv.swap i p x) := by
  refine ⟨?_, ?_⟩
  · intro x hx
    refine h.le _ ?_
    by_cases hxi : x = i
    · subst hxi
      simpa using hp
    · by_cases hxp : x = p
      · subst hxp
        simpa using hi
      · rwa [Equiv.swap_apply_of_ne_of_ne hxi hxp]
  · rw [sum_swap (fun x => 2 ^ (M - l x)) hi hp]
    exact h.sum_le

/-- Giving the lighter of two symbols the longer code word does not cost more. -/
lemma sum_mul_swap_le (hi : i ∈ t) (hp : p ∈ t) (hw : w i ≤ w p) (hl : l i ≤ l p) :
    ∑ x ∈ t, w x * l (Equiv.swap i p x) ≤ ∑ x ∈ t, w x * l x := by
  by_cases hip : i = p
  · subst hip
    simp
  · have hp' : p ∈ t.erase i := mem_erase.2 ⟨Ne.symm hip, hp⟩
    have hrest : ∑ x ∈ (t.erase i).erase p, w x * l (Equiv.swap i p x) =
        ∑ x ∈ (t.erase i).erase p, w x * l x := by
      refine sum_congr rfl fun x hx => ?_
      obtain ⟨hxp, hx'⟩ := mem_erase.1 hx
      rw [Equiv.swap_apply_of_ne_of_ne (mem_erase.1 hx').1 hxp]
    rw [← add_sum_erase t _ hi, ← add_sum_erase (t.erase i) _ hp', hrest,
      ← add_sum_erase t (fun x => w x * l x) hi, ← add_sum_erase (t.erase i) _ hp']
    simp only [Equiv.swap_apply_left, Equiv.swap_apply_right]
    obtain ⟨a, ha⟩ := Nat.exists_eq_add_of_le hw
    obtain ⟨b, hb⟩ := Nat.exists_eq_add_of_le hl
    rw [ha, hb]
    nlinarith [Nat.zero_le (a * b)]

/-- The two lightest symbols can be given one common greatest length. -/
lemma exists_exchange (h : Kraft M t l) (hi : i ∈ t) (hj : j ∈ t) (hij : i ≠ j)
    (hwi : ∀ x ∈ t, w i ≤ w x) (hwj : ∀ x ∈ t, x ≠ i → w j ≤ w x) :
    ∃ l', Kraft M t l' ∧ l' i = l' j ∧ 0 < l' i ∧
      ∑ x ∈ t, w x * l' x ≤ ∑ x ∈ t, w x * l x := by
  obtain ⟨l₀, h₀, hle, p, hp, q, hq, hpq, hqp, hmax⟩ := h.exists_two_longest hi hj hij
  have hcost : ∑ x ∈ t, w x * l₀ x ≤ ∑ x ∈ t, w x * l x :=
    sum_le_sum fun x hx => Nat.mul_le_mul_left _ (hle x hx)
  -- first exchange: `i` gets the greatest length, which another symbol still has
  let l₁ : ι → ℕ := fun x => l₀ (Equiv.swap i p x)
  have h₁ : Kraft M t l₁ := h₀.swap hi hp
  have hl₁i : l₁ i = l₀ p := by simp [l₁]
  have hmax₁ : ∀ x ∈ t, l₁ x ≤ l₀ p := by
    intro x hx
    by_cases hxi : x = i
    · rw [hxi, hl₁i]
    · by_cases hxp : x = p
      · simpa [l₁, hxp] using hmax i hi
      · simpa [l₁, Equiv.swap_apply_of_ne_of_ne hxi hxp] using hmax x hx
  obtain ⟨r, hr, hri, hl₁r⟩ : ∃ r ∈ t, r ≠ i ∧ l₁ r = l₀ p := by
    by_cases hqi : q = i
    · refine ⟨p, hp, hqi ▸ hpq, ?_⟩
      simp [l₁, ← hqi, hqp]
    · exact ⟨q, hq, hqi, by simp [l₁, Equiv.swap_apply_of_ne_of_ne hqi (Ne.symm hpq), hqp]⟩
  have hcost₁ : ∑ x ∈ t, w x * l₁ x ≤ ∑ x ∈ t, w x * l₀ x :=
    sum_mul_swap_le hi hp (hwi p hp) (hmax i hi)
  -- second exchange: `j` gets it too
  let l₂ : ι → ℕ := fun x => l₁ (Equiv.swap j r x)
  have hl₂j : l₂ j = l₀ p := by simpa [l₂] using hl₁r
  have hl₂i : l₂ i = l₀ p := by
    simpa [l₂, Equiv.swap_apply_of_ne_of_ne hij (Ne.symm hri)] using hl₁i
  have h₂ : Kraft M t l₂ := h₁.swap hj hr
  have hcost₂ : ∑ x ∈ t, w x * l₂ x ≤ ∑ x ∈ t, w x * l₁ x := by
    have hle : l₁ j ≤ l₁ r := hl₁r ▸ hmax₁ j hj
    exact sum_mul_swap_le hj hr (hwj r hr hri) hle
  exact ⟨l₂, h₂, hl₂i.trans hl₂j.symm, h₂.pos hi hj hij,
    hcost₂.trans (hcost₁.trans hcost)⟩

/-- Two symbols of equal length can be merged into one that is shorter by one. -/
lemma merge (h : Kraft M t l) (hi : i ∈ t) (hj : j ∈ t) (hij : i ≠ j) (hl : l i = l j) :
    Kraft M (t.erase j) (Function.update l i (l i - 1)) := by
  have hpos : 0 < l i := h.pos hi hj hij
  have hiM : l i ≤ M := h.le i hi
  have hi' : i ∈ t.erase j := mem_erase.2 ⟨hij, hi⟩
  refine ⟨?_, ?_⟩
  · intro x hx
    by_cases hxi : x = i
    · subst hxi
      simp only [Function.update_self]
      omega
    · simpa [Function.update_of_ne hxi] using h.le x (mem_erase.1 hx).2
  · have hrest : ∀ x ∈ (t.erase j).erase i,
        2 ^ (M - Function.update l i (l i - 1) x) = 2 ^ (M - l x) := by
      intro x hx
      rw [Function.update_of_ne (mem_erase.1 hx).1]
    have hsum := h.sum_le
    rw [← add_sum_erase t _ hj, ← add_sum_erase (t.erase j) _ hi', ← hl] at hsum
    rw [← add_sum_erase (t.erase j) _ hi', sum_congr rfl hrest, Function.update_self]
    have hexp : 2 ^ (M - (l i - 1)) = 2 ^ (M - l i) + 2 ^ (M - l i) := by
      have he : M - (l i - 1) = M - l i + 1 := by omega
      rw [he, pow_succ]
      ring
    omega

end Kraft

/-! ### Greedy runs -/

/-- `Merges s c`: some greedy run on the weights `s`, which always merges the two
lightest, has the total `c` of merged weights. -/
inductive Merges : Multiset ℕ → ℕ → Prop
  | single (a : ℕ) : Merges {a} 0
  | merge {a b c : ℕ} {s : Multiset ℕ} : a ≤ b → (∀ x ∈ s, b ≤ x) →
      Merges ((a + b) ::ₘ s) c → Merges (a ::ₘ b ::ₘ s) (a + b + c)

/-- Removing two symbols from the index set removes their weights. -/
lemma exists_of_map_eq_cons_cons {t : Finset ι} {w : ι → ℕ} {a b : ℕ} {s : Multiset ℕ}
    (h : t.val.map w = a ::ₘ b ::ₘ s) :
    ∃ i ∈ t, ∃ j ∈ t, i ≠ j ∧ w i = a ∧ w j = b ∧ ((t.erase j).erase i).val.map w = s := by
  obtain ⟨i, hi, hwi⟩ : ∃ i ∈ t, w i = a := by
    have ha : a ∈ t.val.map w := by simp [h]
    simpa using ha
  have h₁ : (t.erase i).val.map w = b ::ₘ s := by
    have hc : i ::ₘ (t.erase i).val = t.val := by
      rw [erase_val]
      exact Multiset.cons_erase hi
    rw [← hc, Multiset.map_cons, hwi] at h
    exact (Multiset.cons_inj_right a).1 h
  obtain ⟨j, hj, hwj⟩ : ∃ j ∈ t.erase i, w j = b := by
    have hb : b ∈ (t.erase i).val.map w := h₁ ▸ Multiset.mem_cons_self b s
    obtain ⟨j, hj, hwj⟩ := Multiset.mem_map.1 hb
    exact ⟨j, mem_def.2 hj, hwj⟩
  obtain ⟨hji, hjt⟩ := mem_erase.1 hj
  refine ⟨i, hi, j, hjt, Ne.symm hji, hwi, hwj, ?_⟩
  have hc : j ::ₘ ((t.erase i).erase j).val = (t.erase i).val := by
    rw [erase_val (t.erase i)]
    exact Multiset.cons_erase hj
  rw [← hc, Multiset.map_cons, hwj] at h₁
  rw [erase_right_comm]
  exact (Multiset.cons_inj_right b).1 h₁

/-- A new weight for one symbol. -/
lemma map_update {t : Finset ι} {w : ι → ℕ} {i : ι} {a : ℕ} {s : Multiset ℕ} (hi : i ∈ t)
    (hs : (t.erase i).val.map w = s) : t.val.map (Function.update w i a) = a ::ₘ s := by
  have hc : i ::ₘ (t.erase i).val = t.val := by
    rw [erase_val]
    exact Multiset.cons_erase hi
  rw [← hc, Multiset.map_cons, Function.update_self, ← hs]
  congr 1
  refine Multiset.map_congr rfl fun x hx => ?_
  rw [Function.update_of_ne (mem_erase.1 (mem_def.2 hx)).1]

/-- A new weight and a new length for one symbol. -/
lemma sum_update_mul_update {t : Finset ι} {w l : ι → ℕ} {i : ι} {a b : ℕ} (hi : i ∈ t) :
    ∑ x ∈ t, Function.update w i a x * Function.update l i b x =
      a * b + ∑ x ∈ t.erase i, w x * l x := by
  rw [← add_sum_erase t _ hi, Function.update_self, Function.update_self]
  congr 1
  refine sum_congr rfl fun x hx => ?_
  rw [Function.update_of_ne (mem_erase.1 hx).1, Function.update_of_ne (mem_erase.1 hx).1]

/-- **The greedy run is optimal.**  Whatever lengths satisfy the Kraft inequality,
their weighted sum is at least the cost of a greedy run. -/
theorem Merges.le_sum {s : Multiset ℕ} {c : ℕ} (h : Merges s c) :
    ∀ {t : Finset ι} {w l : ι → ℕ} {M : ℕ}, t.val.map w = s → Kraft M t l →
      c ≤ ∑ i ∈ t, w i * l i := by
  induction h with
  | single a => intro t w l M _ _; exact Nat.zero_le _
  | @merge a b c s hab hbs _ ih =>
      intro t w l M hs hk
      obtain ⟨i, hi, j, hj, hij, rfl, rfl, hrest⟩ := exists_of_map_eq_cons_cons hs
      have hmem : ∀ x ∈ t, x ≠ i → x ≠ j → w x ∈ s := by
        intro x hx hxi hxj
        rw [← hrest]
        exact Multiset.mem_map_of_mem w (mem_def.1 (mem_erase.2 ⟨hxi, mem_erase.2 ⟨hxj, hx⟩⟩))
      have hwi : ∀ x ∈ t, w i ≤ w x := by
        intro x hx
        by_cases hxi : x = i
        · rw [hxi]
        · by_cases hxj : x = j
          · rwa [hxj]
          · exact hab.trans (hbs _ (hmem x hx hxi hxj))
      have hwj : ∀ x ∈ t, x ≠ i → w j ≤ w x := by
        intro x hx hxi
        by_cases hxj : x = j
        · rw [hxj]
        · exact hbs _ (hmem x hx hxi hxj)
      obtain ⟨l', hk', hl, hpos, hcost⟩ := hk.exists_exchange hi hj hij hwi hwj
      refine le_trans ?_ hcost
      have hi' : i ∈ t.erase j := mem_erase.2 ⟨hij, hi⟩
      -- in what is left `i` stands for both, with a code word that is shorter by one
      have hle := ih (map_update hi' hrest) (hk'.merge hi hj hij hl)
      rw [sum_update_mul_update hi'] at hle
      rw [← add_sum_erase t _ hj, ← add_sum_erase (t.erase j) _ hi', ← hl]
      obtain ⟨k, hk⟩ : ∃ k, l' i = k + 1 := ⟨l' i - 1, by omega⟩
      rw [hk] at hle ⊢
      simp only [Nat.add_sub_cancel] at hle
      nlinarith [hle]

/-! ### Prefix codes -/

section PrefixCode

variable {α : Type*}

/-- A code without empty words in which no word is a proper prefix of another can be
decoded in one way only. -/
lemma uniquelyDecodable_of_prefixFree {S : Set (List α)} (hne : [] ∉ S)
    (hp : ∀ u ∈ S, ∀ v ∈ S, u <+: v → u = v) : InformationTheory.UniquelyDecodable S := by
  intro us
  induction us with
  | nil =>
      intro vs _ hvs he
      cases vs with
      | nil => rfl
      | cons v vs =>
          have hv : v = [] := List.flatten_eq_nil_iff.1 he.symm v (by simp)
          exact absurd (hv ▸ hvs v (by simp)) hne
  | cons u us ih =>
      intro vs hus hvs he
      cases vs with
      | nil =>
          have hu : u = [] := List.flatten_eq_nil_iff.1 he u (by simp)
          exact absurd (hu ▸ hus u (by simp)) hne
      | cons v vs =>
          have huS : u ∈ S := hus u (by simp)
          have hvS : v ∈ S := hvs v (by simp)
          rw [List.flatten_cons, List.flatten_cons] at he
          -- both begin the same list, so one is a prefix of the other
          have huv : u = v := by
            have h₁ : u <+: u ++ us.flatten := List.prefix_append _ _
            have h₂ : v <+: u ++ us.flatten := he ▸ List.prefix_append _ _
            rcases List.prefix_or_prefix_of_prefix h₁ h₂ with h | h
            · exact hp u huS v hvS h
            · exact (hp v hvS u huS h).symm
          subst huv
          rw [ih vs (fun x hx => hus x (by simp [hx])) (fun x hx => hvs x (by simp [hx]))
            (List.append_cancel_left he)]

end PrefixCode

/-- The lengths of a prefix code for at least two symbols satisfy the Kraft
inequality. -/
theorem kraft_of_prefixFree {t : Finset ι} {code : ι → List Bool}
    (hp : ∀ i ∈ t, ∀ j ∈ t, i ≠ j → ¬ code i <+: code j) (h2 : 1 < #t) :
    ∃ M, Kraft M t fun i => (code i).length := by
  have hinj : ∀ i ∈ t, ∀ j ∈ t, code i = code j → i = j := by
    intro i hi j hj he
    by_contra hij
    exact hp i hi j hj hij (he ▸ List.prefix_rfl)
  have hne : [] ∉ ((t.image code : Finset (List Bool)) : Set (List Bool)) := by
    intro hmem
    obtain ⟨i, hi, he⟩ := mem_image.1 (mem_coe.1 hmem)
    obtain ⟨j, hj, hji⟩ := exists_mem_ne h2 i
    exact hp i hi j hj (Ne.symm hji) (he ▸ List.nil_prefix)
  have hud : InformationTheory.UniquelyDecodable
      ((t.image code : Finset (List Bool)) : Set (List Bool)) := by
    refine uniquelyDecodable_of_prefixFree hne ?_
    intro u hu v hv huv
    obtain ⟨i, hi, rfl⟩ := mem_image.1 (mem_coe.1 hu)
    obtain ⟨j, hj, rfl⟩ := mem_image.1 (mem_coe.1 hv)
    by_contra hij
    exact hp i hi j hj (fun he => hij (he ▸ rfl)) huv
  have hkraft := InformationTheory.kraft_mcmillan_inequality hud
  rw [sum_image fun i hi j hj => hinj i hi j hj] at hkraft
  refine ⟨t.sup fun i => (code i).length, fun i hi => le_sup (f := fun i => (code i).length) hi,
    ?_⟩
  set M := t.sup fun i => (code i).length
  -- the inequality of Mathlib, times `2 ^ M`
  have hterm : ∀ i ∈ t, (2 : ℝ) ^ (M - (code i).length) =
      2 ^ M * (1 / (Fintype.card Bool : ℝ)) ^ (code i).length := by
    intro i hi
    have hle : (code i).length ≤ M := le_sup (f := fun i => (code i).length) hi
    rw [Fintype.card_bool, Nat.cast_ofNat, one_div, inv_pow, ← div_eq_mul_inv,
      eq_div_iff (by positivity), ← pow_add]
    congr 1
    omega
  have hreal : (∑ i ∈ t, (2 : ℝ) ^ (M - (code i).length)) ≤ 2 ^ M := by
    rw [sum_congr rfl hterm, ← mul_sum]
    exact mul_le_of_le_one_right (by positivity) hkraft
  exact_mod_cast hreal

end DemoClass
