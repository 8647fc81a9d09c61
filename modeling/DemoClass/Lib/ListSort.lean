import Mathlib.Data.List.DropRight
import Mathlib.Data.List.Perm.Basic
import Mathlib.Data.Set.Basic
import Mathlib.Tactic.Common

/-!
# Insertion into a list ordered by a three-way comparison

A comparison `c` gives a negative number, zero or a positive number, as a C
comparison function does.  `insertFront` inserts before the first element that is
not smaller, `insertBack` after the last element that is not greater, and
`insertionSort` inserts one element after the other from the back.  All of them
keep the elements whatever `c` is (`insertFront_perm`, …); they keep the list
ordered when `c` is a total preorder on a set that holds the elements
(`insertFront_ordered`, …).
-/

namespace DemoClass

variable {α β : Type}

/-- The comparison `c` is a total preorder on `S`. -/
structure TotalPreorderOn (c : α → α → ℤ) (S : Set α) : Prop where
  neg_iff : ∀ a ∈ S, ∀ b ∈ S, (c a b < 0 ↔ 0 < c b a)
  trans : ∀ a ∈ S, ∀ b ∈ S, ∀ d ∈ S, c a b ≤ 0 → c b d ≤ 0 → c a d ≤ 0

namespace TotalPreorderOn

variable {c : α → α → ℤ} {S : Set α} {a b : α}

lemma mono {T : Set α} (h : TotalPreorderOn c S) (hT : T ⊆ S) : TotalPreorderOn c T :=
  ⟨fun a ha b hb => h.neg_iff a (hT ha) b (hT hb),
    fun a ha b hb d hd => h.trans a (hT ha) b (hT hb) d (hT hd)⟩

lemma nonneg_iff (h : TotalPreorderOn c S) (ha : a ∈ S) (hb : b ∈ S) : 0 ≤ c a b ↔ c b a ≤ 0 := by
  have := h.neg_iff a ha b hb
  omega

lemma refl (h : TotalPreorderOn c Set.univ) (a : α) : c a a ≤ 0 := by
  have := h.neg_iff a trivial a trivial
  omega

lemma eq_zero_iff (h : TotalPreorderOn c Set.univ) : c a b = 0 ↔ c a b ≤ 0 ∧ c b a ≤ 0 := by
  rw [← h.nonneg_iff (a := a) (b := b) trivial trivial, ← le_antisymm_iff]

lemma eq_zero_self (h : TotalPreorderOn c Set.univ) (a : α) : c a a = 0 :=
  h.eq_zero_iff.2 ⟨h.refl a, h.refl a⟩

lemma eq_zero_comm (h : TotalPreorderOn c Set.univ) : c a b = 0 ↔ c b a = 0 := by
  rw [h.eq_zero_iff, h.eq_zero_iff, and_comm]

lemma eq_zero_trans {d : α} (h : TotalPreorderOn c Set.univ) (hab : c a b = 0)
    (hbd : c b d = 0) : c a d = 0 := by
  obtain ⟨hab, hba⟩ := h.eq_zero_iff.1 hab
  obtain ⟨hbd, hdb⟩ := h.eq_zero_iff.1 hbd
  exact h.eq_zero_iff.2 ⟨h.trans a trivial b trivial d trivial hab hbd,
    h.trans d trivial b trivial a trivial hdb hba⟩

lemma flip (h : TotalPreorderOn c S) : TotalPreorderOn (fun a b => c b a) S :=
  ⟨fun a ha b hb => h.neg_iff b hb a ha,
    fun a ha b hb d hd hab hbd => h.trans d hd b hb a ha hbd hab⟩

end TotalPreorderOn

namespace ListSort

/-- Insert `x` before the first element that does not compare less than it. -/
def insertFront (c : α → α → ℤ) (x : α) (xs : List α) : List α :=
  xs.takeWhile (fun v => 0 < c x v) ++ x :: xs.dropWhile (fun v => 0 < c x v)

/-- Insert `x` after the last element that does not compare greater than it. -/
def insertBack (c : α → α → ℤ) (x : α) (xs : List α) : List α :=
  xs.rdropWhile (fun v => 0 < c v x) ++ x :: xs.rtakeWhile (fun v => 0 < c v x)

/-- Append `x` if it is not smaller than the last element, else insert it from the
back. -/
def insertStep (c : α → α → ℤ) (xs : List α) (x : α) : List α :=
  match xs.getLast? with
  | none => [x]
  | some j => if 0 ≤ c x j then xs ++ [x] else insertBack c x xs

/-- Insert the elements one after the other. -/
def insertionSort (c : α → α → ℤ) (xs : List α) : List α := xs.foldl (insertStep c) []

/-- No element compares greater than a later one. -/
abbrev Ordered (c : α → α → ℤ) (xs : List α) : Prop := xs.Pairwise fun a b => c a b ≤ 0

/-- `ys` is `xs` in nondecreasing order, with elements that compare equal in the order
they have in `xs`. -/
structure IsStableSort (c : α → α → ℤ) (xs ys : List α) : Prop where
  perm : ys.Perm xs
  ordered : Ordered c ys
  stable : ∀ z, ys.filter (fun y => c z y = 0) = xs.filter (fun y => c z y = 0)

variable {c : α → α → ℤ} {x : α} {xs : List α}

lemma insertBack_eq_reverse (c : α → α → ℤ) (x : α) (xs : List α) :
    insertBack c x xs = (insertFront (fun a b => c b a) x xs.reverse).reverse := by
  simp [insertBack, insertFront, List.rdropWhile, List.rtakeWhile]

/-! ### The elements stay -/

lemma insertFront_perm (c : α → α → ℤ) (x : α) (xs : List α) :
    (insertFront c x xs).Perm (x :: xs) := by
  refine List.perm_middle.trans ?_
  rw [List.takeWhile_append_dropWhile]

lemma insertBack_perm (c : α → α → ℤ) (x : α) (xs : List α) :
    (insertBack c x xs).Perm (x :: xs) := by
  refine List.perm_middle.trans ?_
  rw [List.rdropWhile_append_rtakeWhile]

lemma insertStep_perm (c : α → α → ℤ) (xs : List α) (x : α) :
    (insertStep c xs x).Perm (x :: xs) := by
  unfold insertStep
  split
  · next h => simp [List.getLast?_eq_none_iff.1 h]
  · split
    · exact List.perm_append_singleton x xs
    · exact insertBack_perm c x xs

lemma foldl_insertStep_perm (c : α → α → ℤ) (xs ys : List α) :
    (ys.foldl (insertStep c) xs).Perm (xs ++ ys) := by
  induction ys generalizing xs with
  | nil => simp
  | cons y ys ih =>
      refine (ih _).trans ?_
      refine ((insertStep_perm c xs y).append_right ys).trans ?_
      exact List.perm_middle.symm

lemma insertionSort_perm (c : α → α → ℤ) (xs : List α) : (insertionSort c xs).Perm xs := by
  simpa [insertionSort] using foldl_insertStep_perm c [] xs

/-! ### The order -/

/-- What does not come before the place of `insertFront` is not smaller. -/
lemma le_of_mem_dropWhile {S : Set α} (hc : TotalPreorderOn c S) (hx : x ∈ S)
    (hxs : ∀ a ∈ xs, a ∈ S) (ho : Ordered c xs) :
    ∀ b ∈ xs.dropWhile (fun v => 0 < c x v), c x b ≤ 0 := by
  cases hd : xs.dropWhile (fun v => 0 < c x v) with
  | nil => simp
  | cons y ys =>
      have hys : ∀ b ∈ y :: ys, b ∈ S := fun b hb =>
        hxs b (List.dropWhile_subset _ (hd ▸ hb))
      have hy : c x y ≤ 0 := by
        have hne : xs.dropWhile (fun v => decide (0 < c x v)) ≠ [] := by simp [hd]
        have h := List.head_dropWhile_not (fun v => decide (0 < c x v)) hne
        simpa [hd] using h
      have hyo : Ordered c (y :: ys) := hd ▸ ho.sublist (List.dropWhile_sublist _)
      intro b hb
      rcases List.mem_cons.1 hb with rfl | hb
      · exact hy
      · exact hc.trans x hx y (hys y (by simp)) b (hys b (by simp [hb])) hy
          (List.rel_of_pairwise_cons hyo hb)

lemma insertFront_ordered {S : Set α} (hc : TotalPreorderOn c S) (hx : x ∈ S)
    (hxs : ∀ a ∈ xs, a ∈ S) (ho : Ordered c xs) : Ordered c (insertFront c x xs) := by
  have hbefore : ∀ a ∈ xs.takeWhile (fun v => 0 < c x v), c a x ≤ 0 := by
    intro a ha
    have hpos : 0 < c x a := by simpa using List.mem_takeWhile_imp ha
    exact ((hc.neg_iff a (hxs a (List.takeWhile_subset _ ha)) x hx).2 hpos).le
  have hafter := le_of_mem_dropWhile hc hx hxs ho
  rw [insertFront, Ordered, List.pairwise_append, List.pairwise_cons]
  refine ⟨ho.sublist (List.takeWhile_sublist _), ⟨hafter, ho.sublist (List.dropWhile_sublist _)⟩,
    ?_⟩
  intro a ha b hb
  rcases List.mem_cons.1 hb with rfl | hb
  · exact hbefore a ha
  · exact hc.trans a (hxs a (List.takeWhile_subset _ ha)) x hx b
      (hxs b (List.dropWhile_subset _ hb)) (hbefore a ha) (hafter b hb)

/-- What is not less than the last element is not less than any. -/
lemma Ordered.le_of_getLast? (hc : TotalPreorderOn c Set.univ) (ho : Ordered c xs)
    (hlast : ∀ u ∈ xs.getLast?, c u x ≤ 0) : ∀ u ∈ xs, c u x ≤ 0 := by
  rcases List.eq_nil_or_concat' xs with rfl | ⟨ys, z, rfl⟩
  · simp
  · obtain ⟨-, -, hle⟩ := List.pairwise_append.1 ho
    have hz : c z x ≤ 0 := hlast z (by simp)
    intro u hu
    rcases List.mem_append.1 hu with hu | hu
    · exact hc.trans u trivial z trivial x trivial (hle u hu z (by simp)) hz
    · rwa [List.mem_singleton.1 hu]

/-- One element more: it comes behind those that do not compare greater. -/
lemma IsStableSort.concat {us ws : List α} (hc : TotalPreorderOn c Set.univ)
    (h : IsStableSort c xs (us ++ ws)) (hus : ∀ u ∈ us, c u x ≤ 0) (hws : ∀ w ∈ ws, 0 < c w x) :
    IsStableSort c (xs ++ [x]) (us ++ x :: ws) := by
  obtain ⟨hou, how, huw⟩ := List.pairwise_append.1 h.ordered
  have hxw : ∀ w ∈ ws, c x w ≤ 0 := fun w hw => (hc.neg_iff x trivial w trivial).2 (hws w hw) |>.le
  refine ⟨?_, ?_, fun z => ?_⟩
  · refine List.perm_middle.trans ((h.perm.cons x).trans ?_)
    exact (List.perm_append_singleton x xs).symm
  · refine List.pairwise_append.2 ⟨hou, List.pairwise_cons.2 ⟨hxw, how⟩, fun u hu w hw => ?_⟩
    rcases List.mem_cons.1 hw with rfl | hw
    · exact hus u hu
    · exact huw u hu w hw
  · rw [List.filter_append xs, ← h.stable z, List.filter_append, List.filter_append]
    by_cases hz : c z x = 0
    · -- what compares equal to `x` does not compare greater than it
      have hnil : ws.filter (fun y => c z y = 0) = [] := by
        refine List.filter_eq_nil_iff.2 fun w hw he => ?_
        have hzw : c z w = 0 := by simpa using he
        have hwz : c w z ≤ 0 := (hc.nonneg_iff trivial trivial).1 hzw.ge
        exact absurd (hc.trans w trivial z trivial x trivial hwz hz.le) (not_le.2 (hws w hw))
      simp [hz, hnil]
    · simp [hz]

lemma ordered_reverse (c : α → α → ℤ) (xs : List α) :
    Ordered (fun a b => c b a) xs.reverse ↔ Ordered c xs := List.pairwise_reverse

lemma insertBack_ordered {S : Set α} (hc : TotalPreorderOn c S) (hx : x ∈ S)
    (hxs : ∀ a ∈ xs, a ∈ S) (ho : Ordered c xs) : Ordered c (insertBack c x xs) := by
  rw [insertBack_eq_reverse, ← ordered_reverse, List.reverse_reverse]
  exact insertFront_ordered hc.flip hx (by simpa using hxs) ((ordered_reverse c xs).2 ho)

/-- For a total preorder the shortcut changes nothing: an element that is not
smaller than the last one is inserted behind it anyway. -/
lemma insertStep_eq_insertBack {S : Set α} (hc : TotalPreorderOn c S) (hx : x ∈ S)
    (hxs : ∀ a ∈ xs, a ∈ S) : insertStep c xs x = insertBack c x xs := by
  rcases List.eq_nil_or_concat xs with rfl | ⟨ys, j, rfl⟩
  · simp [insertStep, insertBack]
  · have hj : 0 ≤ c x j ↔ c j x ≤ 0 := hc.nonneg_iff hx (hxs j (by simp))
    by_cases h : 0 ≤ c x j
    · have hn : ¬ 0 < c j x := by omega
      simp [insertStep, insertBack, h, hn]
    · simp [insertStep, h]

/-- Inserting one element more from the back. -/
lemma IsStableSort.insertBack {ys : List α} (hc : TotalPreorderOn c Set.univ)
    (h : IsStableSort c xs ys) (x : α) : IsStableSort c (xs ++ [x]) (insertBack c x ys) := by
  refine IsStableSort.concat hc ?_ (fun u hu => ?_) fun w hw => ?_
  · rwa [List.rdropWhile_append_rtakeWhile]
  · have hu' : u ∈ ys.reverse.dropWhile fun v => 0 < c v x := List.mem_reverse.1 hu
    exact le_of_mem_dropWhile hc.flip trivial (fun _ _ => trivial)
      ((ordered_reverse c ys).2 h.ordered) u hu'
  · have hw' : w ∈ ys.reverse.takeWhile fun v => 0 < c v x := List.mem_reverse.1 hw
    simpa using List.mem_takeWhile_imp hw'

lemma insertionSort_isStableSort (hc : TotalPreorderOn c Set.univ) (xs : List α) :
    IsStableSort c xs (insertionSort c xs) := by
  have hfold : ∀ ys zs ws : List α, IsStableSort c ys ws →
      IsStableSort c (ys ++ zs) (zs.foldl (insertStep c) ws) := by
    intro ys zs
    induction zs generalizing ys with
    | nil => simp
    | cons z zs ih =>
        intro ws h
        have hz := ih (ys ++ [z]) _ (h.insertBack hc z)
        rw [List.append_assoc, List.singleton_append] at hz
        rwa [List.foldl_cons, insertStep_eq_insertBack hc trivial fun _ _ => trivial]
  exact hfold [] xs [] ⟨List.Perm.refl _, List.Pairwise.nil, fun _ => rfl⟩

lemma foldl_insertStep_ordered {S : Set α} (hc : TotalPreorderOn c S) {ys : List α} :
    ∀ {xs : List α}, (∀ a ∈ xs, a ∈ S) → (∀ a ∈ ys, a ∈ S) → Ordered c xs →
      Ordered c (ys.foldl (insertStep c) xs) := by
  induction ys with
  | nil => exact fun _ _ ho => ho
  | cons y ys ih =>
      intro xs hxs hys ho
      have hy : y ∈ S := hys y (by simp)
      refine ih ?_ (fun a ha => hys a (by simp [ha])) ?_
      · intro a ha
        rcases List.mem_cons.1 ((insertStep_perm c xs y).mem_iff.1 ha) with rfl | ha
        · exact hy
        · exact hxs a ha
      · rw [insertStep_eq_insertBack hc hy hxs]
        exact insertBack_ordered hc hy hxs ho

lemma insertionSort_ordered {S : Set α} (hc : TotalPreorderOn c S) (hxs : ∀ a ∈ xs, a ∈ S) :
    Ordered c (insertionSort c xs) :=
  foldl_insertStep_ordered hc (by simp) hxs List.Pairwise.nil

/-! ### Merging -/

/-- Merging two lists in order, with the element of the second one first where two compare
equal. -/
lemma merge_ordered {S : Set α} {ys : List α} (hc : TotalPreorderOn c S)
    (hxs : ∀ a ∈ xs, a ∈ S) (hys : ∀ a ∈ ys, a ∈ S) (hx : Ordered c xs) (hy : Ordered c ys) :
    Ordered c (xs.merge ys fun a b => c a b < 0) := by
  induction xs generalizing ys with
  | nil => simpa using hy
  | cons x xs ihx =>
      induction ys with
      | nil => simpa using hx
      | cons y ys ihy =>
          have hxS : x ∈ S := hxs x (by simp)
          have hyS : y ∈ S := hys y (by simp)
          have hxs' : ∀ a ∈ xs, a ∈ S := fun a ha => hxs a (by simp [ha])
          have hys' : ∀ a ∈ ys, a ∈ S := fun a ha => hys a (by simp [ha])
          obtain ⟨hxle, hx'⟩ := List.pairwise_cons.1 hx
          obtain ⟨hyle, hy'⟩ := List.pairwise_cons.1 hy
          rw [List.cons_merge_cons]
          by_cases h : c x y < 0
          · rw [if_pos (by simpa using h)]
            refine List.pairwise_cons.2 ⟨fun b hb => ?_, ihx hxs' hys hx' hy⟩
            rcases List.mem_merge.1 hb with hb | hb
            · exact hxle b hb
            · rcases List.mem_cons.1 hb with rfl | hb'
              · exact h.le
              · exact hc.trans x hxS y hyS b (hys b hb) h.le (hyle b hb')
          · have hyx : c y x ≤ 0 := (hc.nonneg_iff hxS hyS).1 (not_lt.1 h)
            rw [if_neg (by simpa using h)]
            refine List.pairwise_cons.2 ⟨fun b hb => ?_, ihy hys' hy'⟩
            rcases List.mem_merge.1 hb with hb | hb
            · rcases List.mem_cons.1 hb with rfl | hb'
              · exact hyx
              · exact hc.trans y hyS x hxS b (hxs b hb) hyx (hxle b hb')
            · exact hyle b hb

/-- Merging two lists in order puts what compares equal to `z` in the second one before what does
in the first one. -/
lemma merge_filter {ys : List α} (hc : TotalPreorderOn c Set.univ) (hx : Ordered c xs)
    (hy : Ordered c ys) (z : α) :
    (xs.merge ys fun a b => c a b < 0).filter (fun a => c z a = 0) =
      ys.filter (fun a => c z a = 0) ++ xs.filter (fun a => c z a = 0) := by
  induction xs generalizing ys with
  | nil => simp
  | cons x xs ihx =>
      induction ys with
      | nil => simp
      | cons y ys ihy =>
          rw [List.cons_merge_cons]
          by_cases h : c x y < 0
          · rw [if_pos (by simpa using h), List.filter_cons, ihx hx.of_cons hy]
            by_cases hz : c z x = 0
            · -- everything in the second list is greater than `x`
              have hnil : (y :: ys).filter (fun a => c z a = 0) = [] := by
                refine List.filter_eq_nil_iff.2 fun b hb he => ?_
                have hzb : c z b = 0 := by simpa using he
                have hyb : c y b ≤ 0 := by
                  rcases List.mem_cons.1 hb with rfl | hb
                  · exact hc.refl b
                  · exact List.rel_of_pairwise_cons hy hb
                have hbz : c b z ≤ 0 := (hc.nonneg_iff trivial trivial).1 hzb.ge
                have hyx : c y x ≤ 0 :=
                  hc.trans y trivial b trivial x trivial hyb
                    (hc.trans b trivial z trivial x trivial hbz hz.le)
                exact absurd ((hc.nonneg_iff trivial trivial).2 hyx) (not_le.2 h)
              simp [hz, hnil]
            · simp [hz]
          · rw [if_neg (by simpa using h), List.filter_cons, ihy hy.of_cons,
              List.filter_cons (x := y)]
            split <;> simp

/-- An ordered list is determined by what compares equal to each element. -/
lemma Ordered.eq_of_filter {ys : List α} (hc : TotalPreorderOn c Set.univ) (hx : Ordered c xs)
    (hy : Ordered c ys)
    (h : ∀ z, xs.filter (fun a => c z a = 0) = ys.filter (fun a => c z a = 0)) : xs = ys := by
  induction xs generalizing ys with
  | nil =>
      refine (List.eq_nil_iff_forall_not_mem.2 fun z hz => ?_).symm
      have hnil : z ∈ ([] : List α).filter fun a => c z a = 0 := by
        simp [h z, hz, hc.eq_zero_self z]
      simp at hnil
  | cons x xs ih =>
      have hmem : ∀ z, z ∈ x :: xs ↔ z ∈ ys := by
        intro z
        have hz := congrArg (z ∈ ·) (h z)
        simpa only [List.mem_filter, hc.eq_zero_self z, decide_true, and_true, eq_iff_iff] using hz
      cases ys with
      | nil => simpa using (hmem x).1 (by simp)
      | cons y ys =>
          have hle : ∀ {u v : α} {us : List α}, Ordered c (u :: us) → v ∈ u :: us → c u v ≤ 0 := by
            intro u v us ho hv
            rcases List.mem_cons.1 hv with rfl | hv
            · exact hc.refl v
            · exact List.rel_of_pairwise_cons ho hv
          have hxy : c x y = 0 :=
            hc.eq_zero_iff.2 ⟨hle hx ((hmem y).2 (by simp)), hle hy ((hmem x).1 (by simp))⟩
          have hhead := h x
          rw [List.filter_cons_of_pos (by simpa using hc.eq_zero_self x),
            List.filter_cons_of_pos (by simpa using hxy)] at hhead
          obtain ⟨rfl, -⟩ := List.cons.inj hhead
          have htail : ∀ z, xs.filter (fun a => c z a = 0) = ys.filter (fun a => c z a = 0) := by
            intro z
            have hz := h z
            rw [List.filter_cons, List.filter_cons] at hz
            split at hz
            · exact (List.cons.inj hz).2
            · exact hz
          rw [ih hx.of_cons hy.of_cons htail]

/-- There is one way to put a list in order that keeps what compares equal in its order. -/
lemma IsStableSort.unique {ys zs : List α} (hc : TotalPreorderOn c Set.univ)
    (hy : IsStableSort c xs ys) (hz : IsStableSort c xs zs) : ys = zs :=
  hy.ordered.eq_of_filter hc hz.ordered fun z => (hy.stable z).trans (hz.stable z).symm

/-! ### Lists of images -/

lemma insertFront_congr {d : α → α → ℤ} (h : ∀ v ∈ xs, c x v = d x v) :
    insertFront c x xs = insertFront d x xs := by
  have key : ∀ ys : List α, (∀ v ∈ ys, c x v = d x v) →
      ys.takeWhile (fun v => decide (0 < c x v)) = ys.takeWhile (fun v => decide (0 < d x v)) ∧
      ys.dropWhile (fun v => decide (0 < c x v)) = ys.dropWhile (fun v => decide (0 < d x v)) := by
    intro ys
    induction ys with
    | nil => simp
    | cons y ys ih =>
        intro hys
        have ih' := ih fun v hv => hys v (by simp [hv])
        simp [List.takeWhile_cons, List.dropWhile_cons, hys y (by simp), ih'.1, ih'.2]
  rw [insertFront, insertFront, (key xs h).1, (key xs h).2]

lemma insertFront_map (f : α → β) (c : β → β → ℤ) (x : α) (xs : List α) :
    (insertFront (fun a b => c (f a) (f b)) x xs).map f = insertFront c (f x) (xs.map f) := by
  simp [insertFront, List.takeWhile_map, List.dropWhile_map, Function.comp_def]

/-- Inserting commutes with a map under which the comparisons with `x` agree. -/
lemma insertFront_map_congr {f : α → β} {d : β → β → ℤ} (h : ∀ v ∈ xs, c x v = d (f x) (f v)) :
    (insertFront c x xs).map f = insertFront d (f x) (xs.map f) := by
  have h' : insertFront c x xs = insertFront (fun a b => d (f a) (f b)) x xs :=
    insertFront_congr h
  rw [h', insertFront_map f d]

lemma insertBack_map (f : α → β) (c : β → β → ℤ) (x : α) (xs : List α) :
    (insertBack (fun a b => c (f a) (f b)) x xs).map f = insertBack c (f x) (xs.map f) := by
  rw [insertBack_eq_reverse, insertBack_eq_reverse, List.map_reverse,
    insertFront_map f fun a b => c b a, List.map_reverse]

lemma insertStep_map (f : α → β) (c : β → β → ℤ) (xs : List α) (x : α) :
    (insertStep (fun a b => c (f a) (f b)) xs x).map f = insertStep c (xs.map f) (f x) := by
  unfold insertStep
  rw [List.getLast?_map]
  cases xs.getLast? with
  | none => simp
  | some j =>
      simp only [Option.map_some]
      split
      · simp
      · exact insertBack_map f c x xs

lemma insertionSort_map (f : α → β) (c : β → β → ℤ) (xs : List α) :
    (insertionSort (fun a b => c (f a) (f b)) xs).map f = insertionSort c (xs.map f) := by
  have h : ∀ (zs ys : List α), (ys.foldl (insertStep fun a b => c (f a) (f b)) zs).map f =
      (ys.map f).foldl (insertStep c) (zs.map f) := by
    intro zs ys
    induction ys generalizing zs with
    | nil => rfl
    | cons y ys ih => rw [List.foldl_cons, ih, insertStep_map, List.map_cons, List.foldl_cons]
  exact h [] xs

end ListSort

end DemoClass
