import DemoClass.Sort.SortArrary

/-!
# Merge sort (`__merge_sort` and `merge_sort` of `sort_arrary.c`)

All calls share one buffer, which each of them fills from its start on and copies back
over its part of the array.  Both parts of a call are in order when it merges them; what
the merge loop and the copy of the unfinished part behind it put into the buffer is
`List.merge` of the two (`mergeTail_ends`), which takes the element of the second part
where two compare equal.
-/

namespace DemoClass

open ListSort

namespace SortArrary

variable {α : Type}

/-- `memcpy` of `n` elements from the place `s` of `src` to the place `d` of `dst`. -/
def memcpy (dst : List α) (d : ℕ) (src : List α) (s n : ℕ) : Comp Fault (List α) :=
  if d + n ≤ dst.length ∧ s + n ≤ src.length then
    pure (dst.take d ++ ((src.drop s).take n ++ dst.drop (d + n)))
  else Comp.fault .outOfBounds

/-- The buffer and the indices `l`, `r` and `i` of `__merge_sort`. -/
structure Merging (α : Type) where
  buf : List α
  l : ℕ
  r : ℕ
  i : ℕ

/-- One round of the merge loop of `__merge_sort`. -/
def mergeBody (cmp : α → α → ℤ) (a : List α) (base nmemb : ℕ) (s : Merging α) :
    Comp Fault (Merging α ⊕ Merging α) :=
  if s.l < nmemb / 2 ∧ s.r < nmemb then do
    let x ← load a (base + s.l)
    let y ← load a (base + s.r)
    if cmp x y < 0 then
      let buf ← store s.buf s.i x
      pure (.inl { s with buf := buf, l := s.l + 1, i := s.i + 1 })
    else
      let buf ← store s.buf s.i y
      pure (.inl { s with buf := buf, r := s.r + 1, i := s.i + 1 })
  else pure (.inr s)

/-- The copy of the unfinished part behind the merge loop of `__merge_sort`. -/
def mergeTail (a : List α) (base nmemb : ℕ) (s : Merging α) : Comp Fault (List α) :=
  if s.l < nmemb / 2 then memcpy s.buf s.i a (base + s.l) (sizeSub (nmemb / 2) s.l)
  else memcpy s.buf s.i a (base + s.r) (sizeSub nmemb s.r)

/-- What `__merge_sort` does behind its two calls: it merges the two parts into the buffer
and copies them back. -/
def mergeParts (cmp : α → α → ℤ) (a buf : List α) (base nmemb : ℕ) :
    Comp Fault (List α × List α) := do
  let s ← Comp.loop (mergeBody cmp a base nmemb) ⟨buf, 0, nmemb / 2, 0⟩
  let buf ← mergeTail a base nmemb s
  let a ← memcpy a base buf 0 nmemb
  pure (a, buf)

/-- The array, the buffer, `base` and `nmemb` of a call of `__merge_sort`. -/
structure MergeCall (α : Type) where
  a : List α
  buf : List α
  base : ℕ
  nmemb : ℕ

/-- The body of `__merge_sort`, which returns the array and the buffer. -/
def _mergeSortBody (cmp : α → α → ℤ) : Comp.RecBody Fault (MergeCall α) (List α × List α) where
  body call q :=
    if q.nmemb ≤ 1 then pure (q.a, q.buf)
    else do
      let v ← call ⟨q.a, q.buf, q.base, q.nmemb / 2⟩
      let w ← call ⟨v.1, v.2, q.base + q.nmemb / 2, sizeSub q.nmemb (q.nmemb / 2)⟩
      mergeParts cmp w.1 w.2 q.base q.nmemb
  le := by
    intro f g n h q
    split
    · exact Comp.LeUpTo.refl n _
    · exact (h _).bind fun v => (h _).bind fun w => Comp.LeUpTo.refl n _

/-- `__merge_sort` -/
def _mergeSort (cmp : α → α → ℤ) (q : MergeCall α) : Comp Fault (List α × List α) :=
  Comp.recur (_mergeSortBody cmp) q

/-- `merge_sort`, with the `nmemb` zeroed elements that `calloc` gives as the buffer. -/
def mergeSort (cmp : α → α → ℤ) (zero : α) (base : List α) : Comp Fault (List α) := do
  let w ← _mergeSort cmp ⟨base, List.replicate base.length zero, 0, base.length⟩
  pure w.1

/-! ### The merge -/

variable {cmp : α → α → ℤ} {a out rest xs ys us vs : List α} {base nmemb l r s : ℕ} {x zero : α}

/-- The first element of a stretch of the array, and the rest of it. -/
lemma getElem?_of_prefix (h : x :: xs <+: a.drop s) : a[s]? = some x ∧ xs <+: a.drop (s + 1) := by
  obtain ⟨ws, hws⟩ := h
  have hx : (a.drop s)[0]? = some x := by rw [← hws]; rfl
  refine ⟨by simpa using hx, ws, ?_⟩
  rw [← List.drop_drop, ← hws]
  rfl

/-- A stretch copied behind the part of the buffer that is filled. -/
lemma memcpy_ends (out : List α) (h : xs <+: a.drop s) (hs : s ≤ a.length)
    (hlen : xs.length ≤ rest.length) :
    (memcpy (out ++ rest) out.length a s xs.length).Ends
      (.ok (out ++ (xs ++ rest.drop xs.length))) := by
  have hle : xs.length ≤ a.length - s := by simpa using h.length_le
  have hbounds : out.length + xs.length ≤ (out ++ rest).length ∧ s + xs.length ≤ a.length := by
    rw [List.length_append]
    omega
  have htake : (a.drop s).take xs.length = xs := (List.prefix_iff_eq_take.1 h).symm
  rw [memcpy, if_pos hbounds, htake]
  simp

/-- An element stored behind the part of the buffer that is filled. -/
lemma store_end_ends (h : 0 < rest.length) (x : α) :
    (store (out ++ rest) out.length x).Ends (.ok ((out ++ [x]) ++ rest.drop 1)) := by
  obtain ⟨y, rest, rfl⟩ := List.exists_cons_of_length_pos h
  have hset : (out ++ y :: rest).set out.length x = (out ++ [x]) ++ rest := by simp
  have hstore := store_ends (a := out ++ y :: rest) (n := out.length) (by simp) x
  rwa [hset] at hstore

/-- One of the two parts is used up: the rest of the other one is copied. -/
lemma mergeTail_ends_of_nil (hl : xs <+: a.drop (base + l)) (hr : ys <+: a.drop (base + r))
    (hlen₁ : l + xs.length = nmemb / 2) (hlen₂ : r + ys.length = nmemb)
    (hbase : base + nmemb ≤ a.length) (hrest : xs.length + ys.length ≤ rest.length)
    (hnil : xs = [] ∨ ys = []) :
    (Comp.loop (mergeBody cmp a base nmemb) ⟨out ++ rest, l, r, out.length⟩ >>=
      mergeTail a base nmemb).Ends (.ok (out ++
        ((xs.merge ys fun x y => cmp x y < 0) ++ rest.drop (xs.length + ys.length)))) := by
  have hend : ¬ (l < nmemb / 2 ∧ r < nmemb) := by
    rcases hnil with rfl | rfl <;> simp only [List.length_nil] at hlen₁ hlen₂ <;> omega
  refine Comp.Ends.bind (Comp.Ends.loop_inr (v := ⟨out ++ rest, l, r, out.length⟩) ?_) ?_
  · rw [mergeBody, if_neg hend]
    simp
  · by_cases hlt : l < nmemb / 2
    · -- the second part is used up
      obtain rfl : ys = [] := hnil.resolve_left (by rintro rfl; simp at hlen₁; omega)
      rw [mergeTail, if_pos hlt, sizeSub_of_le hlt.le, show nmemb / 2 - l = xs.length by omega]
      simpa using memcpy_ends out hl (by omega) (by simpa using hrest)
    · obtain rfl : xs = [] := List.length_eq_zero_iff.1 (by omega)
      rw [mergeTail, if_neg hlt, sizeSub_of_le (show r ≤ nmemb by omega),
        show nmemb - r = ys.length by omega]
      simpa using memcpy_ends out hr (by omega) (by simpa using hrest)

/-- A round of the merge loop stores one of the two elements. -/
lemma mergeBody_ends {y : α} (cmp : α → α → ℤ) (out : List α) (hgo : l < nmemb / 2 ∧ r < nmemb)
    (hx : a[base + l]? = some x) (hy : a[base + r]? = some y) (hpos : 0 < rest.length) :
    (mergeBody cmp a base nmemb ⟨out ++ rest, l, r, out.length⟩).Ends (.ok (.inl
      (if cmp x y < 0 then ⟨(out ++ [x]) ++ rest.drop 1, l + 1, r, (out ++ [x]).length⟩
      else ⟨(out ++ [y]) ++ rest.drop 1, l, r + 1, (out ++ [y]).length⟩))) := by
  rw [mergeBody, if_pos hgo]
  refine (load_ends hx).bind ((load_ends hy).bind ?_)
  by_cases hlt : cmp x y < 0
  · rw [if_pos hlt, if_pos hlt]
    exact (store_end_ends hpos x).bind (by simp)
  · rw [if_neg hlt, if_neg hlt]
    exact (store_end_ends hpos y).bind (by simp)

/-- The merge loop and the copy behind it put the merge of what is left of the two parts
behind what is in the buffer. -/
lemma mergeTail_ends (cmp : α → α → ℤ) (out : List α)
    (hl : xs <+: a.drop (base + l)) (hr : ys <+: a.drop (base + r))
    (hlen₁ : l + xs.length = nmemb / 2) (hlen₂ : r + ys.length = nmemb)
    (hbase : base + nmemb ≤ a.length) (hrest : xs.length + ys.length ≤ rest.length) :
    (Comp.loop (mergeBody cmp a base nmemb) ⟨out ++ rest, l, r, out.length⟩ >>=
      mergeTail a base nmemb).Ends (.ok (out ++
        ((xs.merge ys fun x y => cmp x y < 0) ++ rest.drop (xs.length + ys.length)))) := by
  -- by induction on the two parts, as `List.merge` is defined
  induction xs generalizing ys l r out rest with
  | nil => exact mergeTail_ends_of_nil hl hr hlen₁ hlen₂ hbase hrest (Or.inl rfl)
  | cons x xs ihx =>
      induction ys generalizing r out rest with
      | nil => exact mergeTail_ends_of_nil hl hr hlen₁ hlen₂ hbase hrest (Or.inr rfl)
      | cons y ys ihy =>
          obtain ⟨hx, hl'⟩ := getElem?_of_prefix hl
          obtain ⟨hy, hr'⟩ := getElem?_of_prefix hr
          rw [Nat.add_assoc] at hl' hr'
          rw [List.length_cons] at hlen₁ hlen₂
          have hgo : l < nmemb / 2 ∧ r < nmemb := by omega
          have hpos : 0 < rest.length := by simp at hrest; omega
          have hstep := mergeBody_ends cmp out hgo hx hy hpos
          rw [List.cons_merge_cons]
          by_cases hlt : cmp x y < 0
          · have hrest' : xs.length + (y :: ys).length ≤ (rest.drop 1).length := by
              simp at hrest ⊢
              omega
            have ih := ihx (out ++ [x]) hl' hr (by omega) (by rw [List.length_cons]; omega) hrest'
            rw [if_pos (by simpa using hlt)]
            rw [if_pos hlt] at hstep
            exact hstep.loop_inl_bind (by simpa [Nat.add_assoc, Nat.add_comm 1] using ih)
          · have hrest' : (x :: xs).length + ys.length ≤ (rest.drop 1).length := by
              simp at hrest ⊢
              omega
            have ih := ihy (out ++ [y]) hr' (by omega) hrest'
            rw [if_neg (by simpa using hlt)]
            rw [if_neg hlt] at hstep
            exact hstep.loop_inl_bind (by simpa [Nat.add_assoc, Nat.add_comm 1] using ih)

/-! ### The sort -/

/-- A call for at most one element returns at once. -/
lemma _mergeSort_small {q : MergeCall α} (hle : q.nmemb ≤ 1) :
    (_mergeSort cmp q).Ends (.ok (q.a, q.buf)) := by
  refine Comp.Ends.recur ?_
  show Comp.Ends (if q.nmemb ≤ 1 then _ else _) _
  rw [if_pos hle]
  simp

/-- A call whose own two calls and whose merge end, ends. -/
lemma _mergeSort_of_calls {q : MergeCall α} {v w z : List α × List α} (hgt : ¬ q.nmemb ≤ 1)
    (hv : (_mergeSort cmp ⟨q.a, q.buf, q.base, q.nmemb / 2⟩).Ends (.ok v))
    (hw : (_mergeSort cmp ⟨v.1, v.2, q.base + q.nmemb / 2, q.nmemb - q.nmemb / 2⟩).Ends (.ok w))
    (hz : (mergeParts cmp w.1 w.2 q.base q.nmemb).Ends (.ok z)) :
    (_mergeSort cmp q).Ends (.ok z) := by
  refine Comp.Ends.recur ?_
  show Comp.Ends (if q.nmemb ≤ 1 then _ else _) _
  rw [if_neg hgt, sizeSub_of_le (Nat.div_le_self _ _)]
  exact hv.bind (hw.bind hz)

/-- The two parts are merged in the array, and nothing else of it changes. -/
lemma mergeParts_ends {buf : List α} (hlen₁ : xs.length = nmemb / 2)
    (hlen₂ : xs.length + ys.length = nmemb) (hbuf : nmemb ≤ buf.length) :
    ∃ buf', (mergeParts cmp (us ++ (xs ++ (ys ++ vs))) buf us.length nmemb).Ends
      (.ok (us ++ ((xs.merge ys fun x y => cmp x y < 0) ++ vs), buf')) ∧
      buf'.length = buf.length := by
  obtain ⟨zs, hzs⟩ : ∃ zs, (xs.merge ys fun x y => decide (cmp x y < 0)) = zs := ⟨_, rfl⟩
  have hlen : zs.length = nmemb := by
    rw [← hzs, (List.merge_perm_append _).length_eq, List.length_append, hlen₂]
  have hl : xs <+: (us ++ (xs ++ (ys ++ vs))).drop (us.length + 0) := by simp
  have hr : ys <+: (us ++ (xs ++ (ys ++ vs))).drop (us.length + nmemb / 2) := by
    simp [← hlen₁]
  have hrest : xs.length + ys.length ≤ buf.length := by omega
  have hmid : nmemb / 2 + ys.length = nmemb := by omega
  have htail := mergeTail_ends cmp [] hl hr (by omega) hmid (by simp; omega) hrest
  simp only [hzs, List.nil_append, List.length_nil, hlen₂] at htail ⊢
  have hzs' : zs <+: (zs ++ buf.drop nmemb).drop 0 := by simp
  have hrest' : zs.length ≤ (xs ++ (ys ++ vs)).length := by simp; omega
  have hback := memcpy_ends us hzs' (Nat.zero_le _) hrest'
  have hvs : (xs ++ (ys ++ vs)).drop zs.length = vs := by
    rw [← List.append_assoc, List.drop_left' (by simp; omega)]
  rw [hvs, hlen] at hback
  refine ⟨zs ++ buf.drop nmemb, ?_, by simp; omega⟩
  rw [mergeParts, ← bind_assoc]
  exact htail.bind (hback.bind (by simp))

/-- The halves of a list, put in order by the same function, merged. -/
def mergeHalves (cmp : α → α → ℤ) (xs : List α) : List α :=
  if xs.length ≤ 1 then xs
  else (mergeHalves cmp (xs.take (xs.length / 2))).merge (mergeHalves cmp (xs.drop (xs.length / 2)))
    fun x y => cmp x y < 0
termination_by xs.length

lemma mergeHalves_perm (cmp : α → α → ℤ) (xs : List α) : (mergeHalves cmp xs).Perm xs := by
  fun_induction mergeHalves cmp xs with
  | case1 => rfl
  | case2 xs hle ihl ihr =>
      refine (List.merge_perm_append _).trans ((ihl.append ihr).trans ?_)
      rw [List.take_append_drop]

lemma mergeHalves_ordered {S : Set α} (hc : TotalPreorderOn cmp S) (hxs : ∀ x ∈ xs, x ∈ S) :
    Ordered cmp (mergeHalves cmp xs) := by
  fun_induction mergeHalves cmp xs with
  | case1 xs hle =>
      rcases xs with _ | ⟨x, _ | ⟨y, xs⟩⟩
      · exact List.Pairwise.nil
      · exact List.pairwise_singleton _ _
      · simp at hle
  | case2 xs hle ihl ihr =>
      have hl : ∀ x ∈ xs.take (xs.length / 2), x ∈ S := fun x hx => hxs x (List.mem_of_mem_take hx)
      have hr : ∀ x ∈ xs.drop (xs.length / 2), x ∈ S := fun x hx => hxs x (List.mem_of_mem_drop hx)
      exact merge_ordered hc (fun x hx => hl x ((mergeHalves_perm cmp _).mem_iff.1 hx))
        (fun x hx => hr x ((mergeHalves_perm cmp _).mem_iff.1 hx)) (ihl hl) (ihr hr)

/-- Wherever in an array the part `xs` stands, a call for it with a buffer that is long enough
puts its merged halves there, and leaves the rest of the array as it is. -/
lemma _mergeSort_ends (cmp : α → α → ℤ) (xs us vs buf : List α) (hbuf : xs.length ≤ buf.length) :
    ∃ buf', (_mergeSort cmp ⟨us ++ (xs ++ vs), buf, us.length, xs.length⟩).Ends
        (.ok (us ++ (mergeHalves cmp xs ++ vs), buf')) ∧
      buf'.length = buf.length := by
  fun_induction mergeHalves cmp xs generalizing us vs buf with
  | case1 xs hle => exact ⟨buf, _mergeSort_small hle, rfl⟩
  | case2 xs hle ihl ihr =>
      -- the two calls and the merge make up the call for the whole part
      obtain ⟨ls, hls⟩ : ∃ ls, xs.take (xs.length / 2) = ls := ⟨_, rfl⟩
      obtain ⟨rs, hrs⟩ : ∃ rs, xs.drop (xs.length / 2) = rs := ⟨_, rfl⟩
      have hxs : xs = ls ++ rs := by rw [← hls, ← hrs, List.take_append_drop]
      have hhalf : ls.length = xs.length / 2 := by
        rw [← hls, List.length_take]
        omega
      have hlen : xs.length = ls.length + rs.length := by rw [hxs, List.length_append]
      rw [hls] at ihl
      rw [hrs] at ihr
      rw [hls, hrs]
      have hleny := (mergeHalves_perm cmp ls).length_eq
      have hlenz := (mergeHalves_perm cmp rs).length_eq
      obtain ⟨buf₁, hcall₁, hbuf₁⟩ := ihl us (rs ++ vs) buf (by omega)
      obtain ⟨buf₂, hcall₂, hbuf₂⟩ := ihr (us ++ mergeHalves cmp ls) vs buf₁ (by omega)
      obtain ⟨buf₃, hmerge, hbuf₃⟩ : ∃ buf',
          (mergeParts cmp (us ++ (mergeHalves cmp ls ++ (mergeHalves cmp rs ++ vs))) buf₂ us.length
            xs.length).Ends (.ok (us ++ (((mergeHalves cmp ls).merge (mergeHalves cmp rs)
              fun x y => cmp x y < 0) ++ vs), buf')) ∧ buf'.length = buf₂.length :=
        mergeParts_ends (by omega) (by omega) (by omega)
      refine ⟨buf₃, ?_, by omega⟩
      refine _mergeSort_of_calls hle (v := (us ++ (mergeHalves cmp ls ++ (rs ++ vs)), buf₁))
        (w := (us ++ (mergeHalves cmp ls ++ (mergeHalves cmp rs ++ vs)), buf₂)) ?_ ?_ hmerge
      · rwa [← hhalf, hxs, List.append_assoc ls]
      · rw [List.append_assoc us, List.append_assoc us, List.length_append, hleny] at hcall₂
        rwa [← hhalf, hlen, Nat.add_sub_cancel_left]

/-- `merge_sort` ends without an access outside the array or the buffer, and what it leaves in
the array are the merged halves. -/
lemma mergeSort_ends_mergeHalves (cmp : α → α → ℤ) (zero : α) (xs : List α) :
    (mergeSort cmp zero xs).Ends (.ok (mergeHalves cmp xs)) := by
  obtain ⟨buf, hcall, -⟩ :=
    _mergeSort_ends cmp xs [] [] (List.replicate xs.length zero) (by simp)
  simp only [List.append_nil, List.nil_append, List.length_nil] at hcall
  exact hcall.bind (by simp)

/-- Wherever in an array the part `xs` stands, a call for it with a buffer that is long enough
puts it in order, and leaves the rest of the array as it is. -/
def SortsPart (cmp : α → α → ℤ) (xs : List α) : Prop :=
  ∀ us vs buf : List α, xs.length ≤ buf.length →
    ∃ ys buf', (_mergeSort cmp ⟨us ++ (xs ++ vs), buf, us.length, xs.length⟩).Ends
        (.ok (us ++ (ys ++ vs), buf')) ∧
      buf'.length = buf.length ∧ ys.Perm xs ∧ Ordered cmp ys

lemma sortsPart (hc : TotalPreorderOn cmp {x | x ∈ xs}) : SortsPart cmp xs := by
  intro us vs buf hbuf
  obtain ⟨buf', hcall, hbuf'⟩ := _mergeSort_ends cmp xs us vs buf hbuf
  exact ⟨_, buf', hcall, hbuf', mergeHalves_perm cmp xs, mergeHalves_ordered hc fun _ hx => hx⟩

/-- `merge_sort` ends without an access outside the array or the buffer, and leaves the
elements of the array in nondecreasing order. -/
theorem mergeSort_ends (zero : α) (hc : TotalPreorderOn cmp {x | x ∈ xs}) :
    ∃ ys, (mergeSort cmp zero xs).Ends (.ok ys) ∧ ys.Perm xs ∧ Ordered cmp ys := by
  obtain ⟨ys, buf, hcall, -, hperm, ho⟩ :=
    sortsPart hc [] [] (List.replicate xs.length zero) (by simp)
  simp only [List.append_nil, List.nil_append, List.length_nil] at hcall
  exact ⟨ys, hcall.bind (by simp), hperm, ho⟩

/-- Pairs of a key and a value, by the key. -/
theorem mergeSort_ends_pairs :
    TotalPreorderOn (fun p q : ℤ × Bool => p.1 - q.1)
        {x | x ∈ [(2, true), (1, true), (2, false)]} ∧
      ∃ ys, (mergeSort (fun p q : ℤ × Bool => p.1 - q.1) (0, false)
          [(2, true), (1, true), (2, false)]).Ends (.ok ys) ∧
        ys.Perm [(2, true), (1, true), (2, false)] ∧ Ordered (fun p q => p.1 - q.1) ys := by
  have hc : TotalPreorderOn (fun p q : ℤ × Bool => p.1 - q.1)
      {x | x ∈ [(2, true), (1, true), (2, false)]} :=
    ⟨fun a _ b _ => by omega, fun a _ b _ d _ h₁ h₂ => by omega⟩
  exact ⟨hc, mergeSort_ends (0, false) hc⟩

end SortArrary

end DemoClass
