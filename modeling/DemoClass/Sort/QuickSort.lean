import DemoClass.Sort.SortArrary

/-!
# Quick sort (`__quick_sort` and `quick_sort` of `sort_arrary.c`)

The pivot is held in `buf`, which all calls share, and a hole moves between the two
indices: at `l` when the elements are looked at from the right, at `r` when they are
looked at from the left.  `Parted` is what the two inner loops preserve: with the pivot
put into the hole the part is a shuffle of what it was, no element left of `l` is greater
than the pivot, and no element right of `r` is smaller.  A scan that ends without a find
ends with `l = r`, so the hole is then at both indices.
-/

namespace DemoClass

open ListSort

namespace SortArrary

variable {α : Type}

/-- The array and the indices `l` and `r` of `__quick_sort`. -/
structure Scan (α : Type) where
  a : List α
  l : ℕ
  r : ℕ

/-- One round of the first inner loop of `__quick_sort`. -/
def scanRightBody (cmp : α → α → ℤ) (base : ℕ) (buf : α) (s : Scan α) :
    Comp Fault (Scan α ⊕ Scan α) :=
  if s.l < s.r then do
    let x ← load s.a (base + s.r)
    if cmp x buf < 0 then
      let a ← store s.a (base + s.l) x
      pure (.inr { s with a := a, l := s.l + 1 })
    else pure (.inl { s with r := sizeSub s.r 1 })
  else pure (.inr s)

/-- One round of the second inner loop of `__quick_sort`. -/
def scanLeftBody (cmp : α → α → ℤ) (base : ℕ) (buf : α) (s : Scan α) :
    Comp Fault (Scan α ⊕ Scan α) :=
  if s.l < s.r then do
    let x ← load s.a (base + s.l)
    if cmp x buf > 0 then
      let a ← store s.a (base + s.r) x
      pure (.inr { s with a := a, r := sizeSub s.r 1 })
    else pure (.inl { s with l := s.l + 1 })
  else pure (.inr s)

/-- One round of the outer loop of `__quick_sort`. -/
def partitionBody (cmp : α → α → ℤ) (base : ℕ) (buf : α) (s : Scan α) :
    Comp Fault (Scan α ⊕ Scan α) :=
  if s.l < s.r then do
    let s ← Comp.loop (scanRightBody cmp base buf) s
    let s ← Comp.loop (scanLeftBody cmp base buf) s
    pure (.inl s)
  else pure (.inr s)

/-- The array, `buf`, `base` and `nmemb` of a call of `__quick_sort`. -/
structure Call (α : Type) where
  a : List α
  buf : α
  base : ℕ
  nmemb : ℕ

/-- The body of `__quick_sort`, which returns the array and `buf`. -/
def _quickSortBody (cmp : α → α → ℤ) : Comp.RecBody Fault (Call α) (List α × α) where
  body call q :=
    if q.nmemb < 2 then pure (q.a, q.buf)
    else do
      let buf ← load q.a q.base
      let s ← Comp.loop (partitionBody cmp q.base buf) ⟨q.a, 0, sizeSub q.nmemb 1⟩
      let a ← store s.a (q.base + s.l) buf
      let w ← call ⟨a, buf, q.base, s.l⟩
      call ⟨w.1, w.2, q.base + (s.l + 1), sizeSub (sizeSub q.nmemb s.l) 1⟩
  le := by
    intro f g n h q
    split
    · exact Comp.LeUpTo.refl n _
    · refine (Comp.LeUpTo.refl n _).bind fun buf => ?_
      refine (Comp.LeUpTo.refl n _).bind fun s => ?_
      refine (Comp.LeUpTo.refl n _).bind fun a => ?_
      exact (h _).bind fun w => h _

/-- `__quick_sort` -/
def _quickSort (cmp : α → α → ℤ) (q : Call α) : Comp Fault (List α × α) :=
  Comp.recur (_quickSortBody cmp) q

/-- `quick_sort`, with the zeroed element that `calloc` gives as `buf`. -/
def quickSort (cmp : α → α → ℤ) (zero : α) (base : List α) : Comp Fault (List α) := do
  let w ← _quickSort cmp ⟨base, zero, 0, base.length⟩
  pure w.1

/-! ### The partition -/

variable {cmp : α → α → ℤ} {base nmemb : ℕ} {a₀ : List α} {buf zero : α} {s : Scan α}

/-- The array `a₀` on the way to being partitioned by `buf`, with the hole at `hole`. -/
structure Parted (cmp : α → α → ℤ) (base nmemb : ℕ) (a₀ : List α) (buf : α) (hole : ℕ)
    (s : Scan α) : Prop where
  le : s.l ≤ s.r
  lt : s.r < nmemb
  shuffle : Shuffle base (base + nmemb) (a₀[·]?) ((s.a.set (base + hole) buf)[·]?)
  left : All (fun x => cmp x buf ≤ 0) base (base + s.l) s.a
  right : All (fun x => 0 ≤ cmp x buf) (base + s.r + 1) (base + nmemb) s.a

/-- The array holds the part. -/
lemma Parted.length_eq {hole : ℕ} (h : Parted cmp base nmemb a₀ buf hole s)
    (hn : base + nmemb ≤ a₀.length) : s.a.length = a₀.length := by
  rw [← h.shuffle.length_eq hn, List.length_set]

/-- An element found from the right goes into the hole, which is then at `r`. -/
lemma Parted.takeRight {x : α} (h : Parted cmp base nmemb a₀ buf s.l s)
    (hn : base + nmemb ≤ a₀.length) (hlt : s.l < s.r) (hx : s.a[base + s.r]? = some x)
    (hcmp : cmp x buf < 0) :
    Parted cmp base nmemb a₀ buf s.r ⟨s.a.set (base + s.l) x, s.l + 1, s.r⟩ := by
  have hlen := h.length_eq hn
  obtain ⟨hle, hr, hs, hleft, hright⟩ := h
  obtain ⟨a, l, r⟩ := s
  dsimp only at *
  refine ⟨hlt, hr, hs.trans ?_, ?_, ?_⟩
  · exact Shuffle.set_set (by omega) (by omega) (by omega) (by omega) (by omega) (by omega) hx
  · have hset : (a.set (base + l) x)[base + l]? = some x :=
      List.getElem?_set_self (show base + l < a.length by omega)
    have hleft' : All (fun x => cmp x buf ≤ 0) base (base + l) (a.set (base + l) x) :=
      hleft.congr fun i _ _ => List.getElem?_set_ne (by omega)
    exact hleft'.succ hset (by omega)
  · exact hright.congr fun i _ _ => List.getElem?_set_ne (by omega)

/-- An element found from the left goes into the hole, which is then at `l`. -/
lemma Parted.takeLeft {x : α} (h : Parted cmp base nmemb a₀ buf s.r s)
    (hn : base + nmemb ≤ a₀.length) (hlt : s.l < s.r) (hx : s.a[base + s.l]? = some x)
    (hcmp : cmp x buf > 0) :
    Parted cmp base nmemb a₀ buf s.l ⟨s.a.set (base + s.r) x, s.l, s.r - 1⟩ := by
  have hlen := h.length_eq hn
  obtain ⟨hle, hr, hs, hleft, hright⟩ := h
  obtain ⟨a, l, r⟩ := s
  dsimp only at *
  have hpred : base + (r - 1) + 1 = base + r := by omega
  refine ⟨?_, ?_, hs.trans ?_, ?_, ?_⟩
  · show l ≤ r - 1
    omega
  · show r - 1 < nmemb
    omega
  · exact Shuffle.set_set (by omega) (by omega) (by omega) (by omega) (by omega) (by omega) hx
  · exact hleft.congr fun i _ _ => List.getElem?_set_ne (by omega)
  · have hset : (a.set (base + r) x)[base + r]? = some x :=
      List.getElem?_set_self (show base + r < a.length by omega)
    have hright' : All (fun x => 0 ≤ cmp x buf) (base + r + 1) (base + nmemb)
        (a.set (base + r) x) :=
      hright.congr fun i _ _ => List.getElem?_set_ne (by omega)
    dsimp only
    rw [hpred]
    exact hright'.pred hset (by omega)

/-- An element that stays where it is on the right. -/
lemma Parted.keepRight {x : α} (h : Parted cmp base nmemb a₀ buf s.l s) (hlt : s.l < s.r)
    (hx : s.a[base + s.r]? = some x) (hcmp : ¬ cmp x buf < 0) :
    Parted cmp base nmemb a₀ buf s.l ⟨s.a, s.l, s.r - 1⟩ := by
  obtain ⟨hle, hr, hs, hleft, hright⟩ := h
  obtain ⟨a, l, r⟩ := s
  dsimp only at *
  have hpred : base + (r - 1) + 1 = base + r := by omega
  refine ⟨?_, ?_, hs, hleft, ?_⟩
  · show l ≤ r - 1
    omega
  · show r - 1 < nmemb
    omega
  · dsimp only
    rw [hpred]
    exact hright.pred hx (by omega)

/-- An element that stays where it is on the left. -/
lemma Parted.keepLeft {x : α} (h : Parted cmp base nmemb a₀ buf s.r s) (hlt : s.l < s.r)
    (hx : s.a[base + s.l]? = some x) (hcmp : ¬ cmp x buf > 0) :
    Parted cmp base nmemb a₀ buf s.r ⟨s.a, s.l + 1, s.r⟩ :=
  ⟨hlt, h.lt, h.shuffle, h.left.succ hx (by omega), h.right⟩

/-- The first inner loop moves the hole from `l` to `r`. -/
lemma scanRight_ends (hn : base + nmemb ≤ a₀.length) (h : Parted cmp base nmemb a₀ buf s.l s) :
    ∃ t, (Comp.loop (scanRightBody cmp base buf) s).Ends (.ok t) ∧
      Parted cmp base nmemb a₀ buf t.r t ∧ t.r - t.l ≤ s.r - s.l ∧
      (s.l < s.r → t.r - t.l < s.r - s.l) := by
  -- by induction on the number of elements between the indices
  induction hk : s.r - s.l generalizing s with
  | zero =>
      have hle := h.le
      have hlr : s.l = s.r := by omega
      refine ⟨s, Comp.Ends.loop_inr ?_, ?_, by omega, fun hlt => absurd hlt (by omega)⟩
      · simp [scanRightBody, hlr]
      · rwa [← hlr]
  | succ k ih =>
      have hlen := h.length_eq hn
      have hlt : s.l < s.r := by omega
      have hr := h.lt
      obtain ⟨x, hx⟩ := exists_getElem?_eq (show base + s.r < s.a.length by omega)
      by_cases hcmp : cmp x buf < 0
      · refine ⟨⟨s.a.set (base + s.l) x, s.l + 1, s.r⟩, Comp.Ends.loop_inr ?_,
          h.takeRight hn hlt hx hcmp, ?_, fun _ => ?_⟩
        · rw [scanRightBody, if_pos hlt]
          refine (load_ends hx).bind ?_
          rw [if_pos hcmp]
          exact (store_ends (by omega) x).bind (by simp)
        · show s.r - (s.l + 1) ≤ k + 1
          omega
        · show s.r - (s.l + 1) < k + 1
          omega
      · have hk' : s.r - 1 - s.l = k := by omega
        obtain ⟨t, hend, ht, hle, -⟩ := ih (s := ⟨s.a, s.l, s.r - 1⟩)
          (h.keepRight hlt hx hcmp) hk'
        refine ⟨t, Comp.Ends.loop_inl ?_ hend, ht, by omega, fun _ => by omega⟩
        rw [scanRightBody, if_pos hlt]
        refine (load_ends hx).bind ?_
        rw [if_neg hcmp, sizeSub_of_le (by omega)]
        simp

/-- The second inner loop moves the hole from `r` to `l`. -/
lemma scanLeft_ends (hn : base + nmemb ≤ a₀.length) (h : Parted cmp base nmemb a₀ buf s.r s) :
    ∃ t, (Comp.loop (scanLeftBody cmp base buf) s).Ends (.ok t) ∧
      Parted cmp base nmemb a₀ buf t.l t ∧ t.r - t.l ≤ s.r - s.l := by
  induction hk : s.r - s.l generalizing s with
  | zero =>
      have hle := h.le
      have hlr : s.l = s.r := by omega
      refine ⟨s, Comp.Ends.loop_inr ?_, ?_, by omega⟩
      · simp [scanLeftBody, hlr]
      · rwa [hlr]
  | succ k ih =>
      have hlen := h.length_eq hn
      have hlt : s.l < s.r := by omega
      have hr := h.lt
      obtain ⟨x, hx⟩ := exists_getElem?_eq (show base + s.l < s.a.length by omega)
      by_cases hcmp : cmp x buf > 0
      · refine ⟨⟨s.a.set (base + s.r) x, s.l, s.r - 1⟩, Comp.Ends.loop_inr ?_,
          h.takeLeft hn hlt hx hcmp, ?_⟩
        · rw [scanLeftBody, if_pos hlt]
          refine (load_ends hx).bind ?_
          rw [if_pos hcmp, sizeSub_of_le (by omega)]
          exact (store_ends (by omega) x).bind (by simp)
        · show s.r - 1 - s.l ≤ k + 1
          omega
      · have hk' : s.r - (s.l + 1) = k := by omega
        obtain ⟨t, hend, ht, hle⟩ := ih (s := ⟨s.a, s.l + 1, s.r⟩)
          (h.keepLeft hlt hx hcmp) hk'
        refine ⟨t, Comp.Ends.loop_inl ?_ hend, ht, by omega⟩
        rw [scanLeftBody, if_pos hlt]
        refine (load_ends hx).bind ?_
        rw [if_neg hcmp]
        simp

/-- The outer loop ends with both indices at the hole. -/
lemma partition_ends (hn : base + nmemb ≤ a₀.length) (h : Parted cmp base nmemb a₀ buf s.l s) :
    ∃ t, (Comp.loop (partitionBody cmp base buf) s).Ends (.ok t) ∧
      Parted cmp base nmemb a₀ buf t.l t ∧ t.l = t.r := by
  induction hk : s.r - s.l using Nat.strong_induction_on generalizing s with
  | _ k ih =>
      by_cases hlt : s.l < s.r
      · obtain ⟨t, hright, ht, -, hlt'⟩ := scanRight_ends hn h
        obtain ⟨u, hleft, hu, hle⟩ := scanLeft_ends hn ht
        have hdec := hlt' hlt
        obtain ⟨v, hv, hpv, heq⟩ := ih (u.r - u.l) (by omega) hu rfl
        refine ⟨v, Comp.Ends.loop_inl ?_ hv, hpv, heq⟩
        rw [partitionBody, if_pos hlt]
        exact hright.bind (hleft.bind (by simp))
      · have hle := h.le
        refine ⟨s, Comp.Ends.loop_inr ?_, h, by omega⟩
        rw [partitionBody, if_neg hlt]
        simp

/-! ### The sort -/

/-- The pivot is the first element, which leaves the hole there. -/
lemma Parted.first (h : 2 ≤ nmemb) (hbuf : a₀[base]? = some buf) :
    Parted cmp base nmemb a₀ buf 0 ⟨a₀, 0, nmemb - 1⟩ := by
  have hlt : nmemb - 1 < nmemb := by omega
  refine ⟨Nat.zero_le _, hlt, ?_, ?_, ?_⟩
  · have hset : a₀.set (base + 0) buf = a₀ := by
      obtain ⟨hb, rfl⟩ := List.getElem?_eq_some_iff.1 hbuf
      exact List.set_getElem_self hb
    show Shuffle base (base + nmemb) (a₀[·]?) ((a₀.set (base + 0) buf)[·]?)
    rw [hset]
    exact Shuffle.refl _ _ _
  · intro i h₁ h₂
    dsimp only at h₂
    omega
  · intro i h₁ h₂
    dsimp only at h₁
    omega

/-- The array after the pivot is put back, at `l`. -/
structure Pivoted (cmp : α → α → ℤ) (base nmemb : ℕ) (a₀ : List α) (buf : α) (l : ℕ)
    (a₁ : List α) : Prop where
  lt : l < nmemb
  shuffle : Shuffle base (base + nmemb) (a₀[·]?) (a₁[·]?)
  pivot : a₁[base + l]? = some buf
  left : All (fun x => cmp x buf ≤ 0) base (base + l) a₁
  right : All (fun x => 0 ≤ cmp x buf) (base + l + 1) (base + nmemb) a₁

/-- When the indices meet at the hole, the pivot goes there. -/
lemma Parted.pivoted (h : Parted cmp base nmemb a₀ buf s.l s) (hn : base + nmemb ≤ a₀.length)
    (heq : s.l = s.r) : Pivoted cmp base nmemb a₀ buf s.l (s.a.set (base + s.l) buf) := by
  have hlen := h.length_eq hn
  have hlt : s.l < nmemb := heq ▸ h.lt
  refine ⟨hlt, h.shuffle, List.getElem?_set_self (by omega), ?_, ?_⟩
  · exact h.left.congr fun i _ _ => List.getElem?_set_ne (by omega)
  · have hright : All (fun x => 0 ≤ cmp x buf) (base + s.l + 1) (base + nmemb) s.a := by
      rw [heq]
      exact h.right
    exact hright.congr fun i _ _ => List.getElem?_set_ne (by omega)

/-- A partitioned array whose two parts are then sorted is sorted. -/
lemma Pivoted.ordered {a₁ a₂ a₃ : List α} {l : ℕ} (h : Pivoted cmp base nmemb a₀ buf l a₁)
    (hc : TotalPreorderOn cmp {x | x ∈ a₃})
    (hs₂ : Shuffle base (base + l) (a₁[·]?) (a₂[·]?)) (ho₂ : OrderedIn cmp base (base + l) a₂)
    (hs₃ : Shuffle (base + l + 1) (base + nmemb) (a₂[·]?) (a₃[·]?))
    (ho₃ : OrderedIn cmp (base + l + 1) (base + nmemb) a₃) :
    OrderedIn cmp base (base + nmemb) a₃ := by
  -- each part is left alone while the other one is sorted
  have h₂ : ∀ i, base + l ≤ i → a₂[i]? = a₁[i]? := fun i hi => hs₂.eq_outside (Or.inr hi)
  have h₃ : ∀ i, i < base + l + 1 → a₃[i]? = a₂[i]? := fun i hi => hs₃.eq_outside (Or.inl hi)
  have hmid : a₃[base + l]? = some buf := by rw [h₃ _ (by omega), h₂ _ (by omega), h.pivot]
  refine OrderedIn.append hc hmid ?_ ho₃ ?_ ?_
  · exact ho₂.congr fun i _ _ => h₃ i (by omega)
  · exact (h.left.shuffle hs₂).congr fun i _ _ => h₃ i (by omega)
  · have hright₂ : All (fun x => 0 ≤ cmp x buf) (base + l + 1) (base + nmemb) a₂ :=
      h.right.congr fun i _ _ => h₂ i (by omega)
    exact hright₂.shuffle hs₃

/-- Rearranging a part of the array leaves the comparison a total preorder on it. -/
lemma TotalPreorderOn.shuffle {a a' : List α} {lo hi : ℕ} (hc : TotalPreorderOn cmp {x | x ∈ a})
    (hs : Shuffle lo hi (a[·]?) (a'[·]?)) (hhi : hi ≤ a.length) :
    TotalPreorderOn cmp {x | x ∈ a'} :=
  hc.mono fun _ hx => (hs.perm hhi).mem_iff.1 hx

/-- A call for less than two elements returns at once. -/
lemma _quickSort_small {q : Call α} (hlt : q.nmemb < 2) :
    (_quickSort cmp q).Ends (.ok (q.a, q.buf)) := by
  refine Comp.Ends.recur ?_
  show Comp.Ends (if q.nmemb < 2 then _ else _) _
  rw [if_pos hlt]
  simp

/-- A call whose partition and whose own two calls end, ends. -/
lemma _quickSort_of_calls {buf₀ buf₂ : α} {a₂ : List α} {t : Scan α} {w : List α × α}
    (hge : ¬ nmemb < 2) (hbuf : a₀[base]? = some buf)
    (hpart : (Comp.loop (partitionBody cmp base buf) ⟨a₀, 0, nmemb - 1⟩).Ends (.ok t))
    (hlt : t.l < nmemb) (hlen : base + t.l < t.a.length)
    (hcall₂ : (_quickSort cmp ⟨t.a.set (base + t.l) buf, buf, base, t.l⟩).Ends (.ok (a₂, buf₂)))
    (hcall₃ : (_quickSort cmp ⟨a₂, buf₂, base + (t.l + 1), nmemb - t.l - 1⟩).Ends (.ok w)) :
    (_quickSort cmp ⟨a₀, buf₀, base, nmemb⟩).Ends (.ok w) := by
  refine Comp.Ends.recur ?_
  show Comp.Ends (if nmemb < 2 then _ else _) _
  rw [if_neg hge]
  refine (load_ends hbuf).bind ?_
  rw [sizeSub_of_le (show 1 ≤ nmemb by omega)]
  refine hpart.bind ((store_ends hlen buf).bind (hcall₂.bind ?_))
  rw [sizeSub_of_le (show t.l ≤ nmemb by omega), sizeSub_of_le (show 1 ≤ nmemb - t.l by omega)]
  exact hcall₃

lemma _quickSort_ends {q : Call α} (hn : q.base + q.nmemb ≤ q.a.length)
    (hc : TotalPreorderOn cmp {x | x ∈ q.a}) :
    ∃ a buf, (_quickSort cmp q).Ends (.ok (a, buf)) ∧
      Shuffle q.base (q.base + q.nmemb) (q.a[·]?) (a[·]?) ∧
      OrderedIn cmp q.base (q.base + q.nmemb) a := by
  -- both parts are smaller, for the pivot is in neither
  induction hk : q.nmemb using Nat.strong_induction_on generalizing q with
  | _ k ih =>
      by_cases hlt : q.nmemb < 2
      · refine ⟨q.a, q.buf, _quickSort_small hlt, Shuffle.refl _ _ _, ?_⟩
        exact OrderedIn.of_le_succ (by omega)
      · obtain ⟨a₀, buf₀, base, nmemb⟩ := q
        dsimp only at *
        subst hk
        obtain ⟨buf, hbuf⟩ := exists_getElem?_eq (show base < a₀.length by omega)
        have hfirst : Parted cmp base nmemb a₀ buf 0 ⟨a₀, 0, nmemb - 1⟩ :=
          Parted.first (by omega) hbuf
        obtain ⟨t, hpart, ht, heq⟩ := partition_ends (s := ⟨a₀, 0, nmemb - 1⟩) hn hfirst
        have hlen := ht.length_eq hn
        have hp := ht.pivoted hn heq
        have hlt' := hp.lt
        obtain ⟨a₁, ha₁⟩ : ∃ a₁, t.a.set (base + t.l) buf = a₁ := ⟨_, rfl⟩
        rw [ha₁] at hp
        have hlen₁ : a₁.length = a₀.length := hp.shuffle.length_eq hn
        have hc₁ := TotalPreorderOn.shuffle hc hp.shuffle hn
        obtain ⟨a₂, buf₂, hcall₂, hs₂, ho₂⟩ := ih t.l hlt' (q := ⟨a₁, buf, base, t.l⟩)
          (by dsimp only; omega) hc₁ rfl
        dsimp only at hs₂ ho₂
        have hlen₂ : a₂.length = a₁.length := hs₂.length_eq (by omega)
        have hc₂ := TotalPreorderOn.shuffle hc₁ hs₂ (by omega)
        obtain ⟨a₃, buf₃, hcall₃, hs₃, ho₃⟩ := ih (nmemb - t.l - 1) (by omega)
          (q := ⟨a₂, buf₂, base + (t.l + 1), nmemb - t.l - 1⟩) (by dsimp only; omega) hc₂ rfl
        have hhi : base + (t.l + 1) + (nmemb - t.l - 1) = base + nmemb := by omega
        dsimp only at hs₃ ho₃
        rw [hhi] at hs₃ ho₃
        have hc₃ := TotalPreorderOn.shuffle hc₂ hs₃ (by omega)
        refine ⟨a₃, buf₃, ?_, ?_, hp.ordered hc₃ hs₂ ho₂ hs₃ ho₃⟩
        · exact _quickSort_of_calls hlt hbuf hpart hlt' (by omega) (ha₁ ▸ hcall₂) hcall₃
        · have hs₂' := hs₂.mono (Nat.le_refl base) (show base + t.l ≤ base + nmemb by omega)
          have hs₃' := hs₃.mono (show base ≤ base + (t.l + 1) by omega) (Nat.le_refl (base + nmemb))
          exact hp.shuffle.trans (hs₂'.trans hs₃')

/-- Sorting all of the array. -/
lemma quickSort_of_call {xs ys : List α} {w : α}
    (hcall : (_quickSort cmp ⟨xs, zero, 0, xs.length⟩).Ends (.ok (ys, w)))
    (hs : Shuffle 0 (0 + xs.length) (xs[·]?) (ys[·]?))
    (ho : OrderedIn cmp 0 (0 + xs.length) ys) :
    (quickSort cmp zero xs).Ends (.ok ys) ∧ ys.Perm xs ∧ Ordered cmp ys := by
  have hn : 0 + xs.length ≤ xs.length := by omega
  have hlen : ys.length = xs.length := hs.length_eq hn
  refine ⟨hcall.bind (by simp), hs.perm hn, OrderedIn.ordered ?_⟩
  rw [hlen]
  simpa using ho

/-- `quick_sort` ends without an access outside the array, and leaves its elements in
nondecreasing order. -/
theorem quickSort_ends {xs : List α} (zero : α) (hc : TotalPreorderOn cmp {x | x ∈ xs}) :
    ∃ ys, (quickSort cmp zero xs).Ends (.ok ys) ∧ ys.Perm xs ∧ Ordered cmp ys := by
  have hn : 0 + xs.length ≤ xs.length := by omega
  obtain ⟨ys, buf, hcall, hs, ho⟩ := _quickSort_ends (q := ⟨xs, zero, 0, xs.length⟩) hn hc
  exact ⟨ys, quickSort_of_call hcall hs ho⟩

/-- A pair of a key and a value, by the key. -/
theorem quickSort_ends_pairs :
    TotalPreorderOn (fun p q : ℤ × Bool => p.1 - q.1)
        {x | x ∈ [(2, true), (1, true), (2, false)]} ∧
      ∃ ys, (quickSort (fun p q : ℤ × Bool => p.1 - q.1) (0, false)
          [(2, true), (1, true), (2, false)]).Ends (.ok ys) ∧
        ys.Perm [(2, true), (1, true), (2, false)] ∧ Ordered (fun p q => p.1 - q.1) ys := by
  have hc : TotalPreorderOn (fun p q : ℤ × Bool => p.1 - q.1)
      {x | x ∈ [(2, true), (1, true), (2, false)]} :=
    ⟨fun a _ b _ => by omega, fun a _ b _ d _ h₁ h₂ => by omega⟩
  exact ⟨hc, quickSort_ends (0, false) hc⟩

/-- Of two elements the second one comes to the front when it compares less. -/
lemma quickSort_pair {x y : α} (zero : α) (hlt : cmp y x < 0) :
    (quickSort cmp zero [x, y]).Ends (.ok [y, x]) := by
  have hright : (Comp.loop (scanRightBody cmp 0 x) ⟨[x, y], 0, 1⟩).Ends (.ok ⟨[y, y], 1, 1⟩) :=
    Comp.Ends.loop_inr (by simp [scanRightBody, load, store, hlt])
  have hleft : (Comp.loop (scanLeftBody cmp 0 x) ⟨[y, y], 1, 1⟩).Ends (.ok ⟨[y, y], 1, 1⟩) :=
    Comp.Ends.loop_inr (by simp [scanLeftBody])
  have hpart : (Comp.loop (partitionBody cmp 0 x) ⟨[x, y], 0, 2 - 1⟩).Ends
      (.ok ⟨[y, y], 1, 1⟩) := by
    refine Comp.Ends.loop_inl (t := ⟨[y, y], 1, 1⟩) ?_ (Comp.Ends.loop_inr ?_)
    · rw [partitionBody, if_pos Nat.zero_lt_one]
      exact hright.bind (hleft.bind (Comp.ends_pure.2 rfl))
    · simp [partitionBody]
  refine Comp.Ends.bind (_quickSort_of_calls (by simp) rfl hpart (by simp) (by simp)
    (_quickSort_small (by simp)) (_quickSort_small (by simp))) ?_
  exact Comp.ends_pure.2 rfl

end SortArrary

end DemoClass
