import DemoClass.Lib.ListSort
import Mathlib.Data.List.Nodup
import Mathlib.Data.Tree.Basic

/-!
# Binary search trees with repeated keys

The nodes of a tree are compared by a comparison `cmp`.  In an ordered tree the
nodes to the left of a node compare less than it, and the nodes to its right do
not (`Ordered`).  `insert` puts a node that compares equal to the right of the
nodes that are there; `deleteRoot` replaces the root of a tree by the leftmost
node of its right subtree, when it has two subtrees, and `delete` does so with the
subtree of a given node.

A context is a tree with a hole, read from the hole up to the root.  `fill` puts a
tree into the hole; the walk of an insertion down to its place is a context
(`descend`), and so is the walk down to the leftmost node (`leftmost`).
-/

namespace DemoClass

namespace SearchTree

variable {ι : Type}

/-- The nodes from left to right. -/
def inorder : BinaryTree ι → List ι
  | .nil => []
  | .node x l r => inorder l ++ x :: inorder r

/-- The node at the root. -/
def root? : BinaryTree ι → Option ι
  | .nil => none
  | .node x _ _ => some x

/-- Smaller nodes are to the left of every node, the others to its right. -/
def Ordered (cmp : ι → ι → ℤ) : BinaryTree ι → Prop
  | .nil => True
  | .node x l r =>
    (∀ y ∈ inorder l, cmp y x < 0) ∧ (∀ y ∈ inorder r, 0 ≤ cmp y x) ∧ Ordered cmp l ∧ Ordered cmp r

/-- Insert `x` as a leaf, to the right of what compares equal. -/
def insert (cmp : ι → ι → ℤ) (x : ι) : BinaryTree ι → BinaryTree ι
  | .nil => .node x .nil .nil
  | .node y l r =>
    if 0 ≤ cmp x y then .node y l (insert cmp x r) else .node y (insert cmp x l) r

/-- Take the leftmost node out of the tree with root `x` and subtrees `l` and `r`. -/
def popLeft : ι → BinaryTree ι → BinaryTree ι → ι × BinaryTree ι
  | x, .nil, r => (x, r)
  | x, .node y l' r', r => ((popLeft y l' r').1, .node x (popLeft y l' r').2 r)

/-- Remove the root. -/
def deleteRoot : BinaryTree ι → BinaryTree ι
  | .nil => .nil
  | .node _ .nil r => r
  | .node _ (.node y l r) .nil => .node y l r
  | .node _ (.node y l r) (.node z l' r') =>
    .node (popLeft z l' r').1 (.node y l r) (popLeft z l' r').2

/-- Remove the node `x`. -/
def delete [DecidableEq ι] (x : ι) : BinaryTree ι → BinaryTree ι
  | .nil => .nil
  | .node y l r => if x = y then deleteRoot (.node y l r) else .node y (delete x l) (delete x r)

variable {cmp : ι → ι → ℤ} {x y : ι} {t u l r : BinaryTree ι}

@[simp] lemma inorder_nil : inorder (.nil : BinaryTree ι) = [] := rfl

@[simp] lemma inorder_node : inorder (.node x l r) = inorder l ++ x :: inorder r := rfl

@[simp] lemma root?_nil : root? (.nil : BinaryTree ι) = none := rfl

@[simp] lemma root?_node : root? (.node x l r) = some x := rfl

@[simp] lemma root?_eq_none : root? t = none ↔ t = .nil := by
  cases t <;> simp

lemma inorder_eq_nil : inorder t = [] ↔ t = .nil := by
  cases t <;> simp

lemma mem_of_root? (h : root? t = some x) : x ∈ inorder t := by
  cases t with
  | nil => simp at h
  | node y l r =>
      obtain rfl : y = x := by simpa using h
      simp

@[simp] lemma ordered_nil : Ordered cmp .nil := trivial

lemma ordered_node : Ordered cmp (.node x l r) ↔ (∀ y ∈ inorder l, cmp y x < 0) ∧
    (∀ y ∈ inorder r, 0 ≤ cmp y x) ∧ Ordered cmp l ∧ Ordered cmp r := Iff.rfl

/-! ### Contexts -/

/-- A step from a subtree up to the tree it is the left or the right subtree of. -/
inductive Frame (ι : Type)
  | left (x : ι) (r : BinaryTree ι)
  | right (x : ι) (l : BinaryTree ι)

/-- The steps from the hole up to the root. -/
abbrev Context (ι : Type) := List (Frame ι)

/-- Put a tree into the hole. -/
def fill : Context ι → BinaryTree ι → BinaryTree ι
  | [], t => t
  | .left x r :: c, t => fill c (.node x t r)
  | .right x l :: c, t => fill c (.node x l t)

/-- The nodes to the left of the hole. -/
def before : Context ι → List ι
  | [] => []
  | .left _ _ :: c => before c
  | .right x l :: c => before c ++ (inorder l ++ [x])

/-- The nodes to the right of the hole. -/
def after : Context ι → List ι
  | [] => []
  | .left x r :: c => x :: inorder r ++ after c
  | .right _ _ :: c => after c

/-- The nodes outside the hole. -/
def outside (c : Context ι) : List ι := before c ++ after c

variable {c : Context ι}

lemma inorder_fill (c : Context ι) (t : BinaryTree ι) :
    inorder (fill c t) = before c ++ (inorder t ++ after c) := by
  induction c generalizing t with
  | nil => simp [fill, before, after]
  | cons f c ih => cases f <;> simp [fill, before, after, ih]

lemma inorder_fill_perm (c : Context ι) (t : BinaryTree ι) :
    (inorder (fill c t)).Perm (inorder t ++ outside c) := by
  rw [inorder_fill, outside]
  exact List.perm_append_comm_assoc _ _ _

lemma mem_inorder_fill : x ∈ inorder (fill c t) ↔ x ∈ inorder t ∨ x ∈ outside c := by
  rw [(inorder_fill_perm c t).mem_iff, List.mem_append]

lemma nodup_inorder_fill : (inorder (fill c t)).Nodup ↔
    (inorder t).Nodup ∧ (outside c).Nodup ∧ (inorder t).Disjoint (outside c) := by
  rw [(inorder_fill_perm c t).nodup_iff, List.nodup_append']

lemma outside_left_perm (x : ι) (r : BinaryTree ι) (c : Context ι) :
    (outside (.left x r :: c)).Perm (x :: (inorder r ++ outside c)) := by
  simp only [outside, before, after, List.cons_append]
  exact List.perm_middle.trans ((List.perm_append_comm_assoc (before c) (inorder r) _).cons x)

lemma outside_right_perm (x : ι) (l : BinaryTree ι) (c : Context ι) :
    (outside (.right x l :: c)).Perm (x :: (inorder l ++ outside c)) := by
  simp only [outside, before, after, List.append_assoc, List.singleton_append]
  exact ((List.perm_append_comm_assoc (before c) (inorder l) _).trans
    (List.perm_middle.append_left (inorder l))).trans List.perm_middle

lemma mem_outside_left : y ∈ outside (.left x r :: c) ↔ y = x ∨ y ∈ inorder r ∨ y ∈ outside c := by
  rw [(outside_left_perm x r c).mem_iff, List.mem_cons, List.mem_append]

lemma mem_outside_right :
    y ∈ outside (.right x l :: c) ↔ y = x ∨ y ∈ inorder l ∨ y ∈ outside c := by
  rw [(outside_right_perm x l c).mem_iff, List.mem_cons, List.mem_append]

lemma exists_eq_fill_of_mem (h : x ∈ inorder t) : ∃ c l r, t = fill c (.node x l r) := by
  suffices hc : ∀ c, ∃ c' l r, fill c t = fill c' (.node x l r) from hc []
  induction t with
  | nil => simp at h
  | node y l r ihl ihr =>
      intro c
      rcases show x ∈ inorder l ∨ x = y ∨ x ∈ inorder r by simpa using h with hl | rfl | hr
      · exact ihl hl (.left y r :: c)
      · exact ⟨c, l, r, rfl⟩
      · exact ihr hr (.right y l :: c)

lemma Ordered.of_fill (h : Ordered cmp (fill c t)) : Ordered cmp t := by
  induction c generalizing t with
  | nil => exact h
  | cons f c ih =>
      cases f with
      | left x r => exact (ordered_node.1 (ih h)).2.2.1
      | right x l => exact (ordered_node.1 (ih h)).2.2.2

/-- A subtree may be exchanged for an ordered tree over some of its nodes. -/
lemma Ordered.fill_of_subset (h : Ordered cmp (fill c t)) (hu : Ordered cmp u)
    (hsub : inorder u ⊆ inorder t) : Ordered cmp (fill c u) := by
  induction c generalizing t u with
  | nil => exact hu
  | cons f c ih =>
      cases f with
      | left x r =>
          obtain ⟨hl, hr, -, hor⟩ := ordered_node.1 (Ordered.of_fill (c := c) h)
          refine ih h (ordered_node.2 ⟨fun y hy => hl y (hsub hy), hr, hu, hor⟩) ?_
          intro y hy
          rcases List.mem_append.1 hy with hy | hy
          · exact List.mem_append_left _ (hsub hy)
          · exact List.mem_append_right _ hy
      | right x l =>
          obtain ⟨hl, hr, hol, -⟩ := ordered_node.1 (Ordered.of_fill (c := c) h)
          refine ih h (ordered_node.2 ⟨hl, fun y hy => hr y (hsub hy), hol, hu⟩) ?_
          intro y hy
          rcases List.mem_append.1 hy with hy | hy
          · exact List.mem_append_left _ hy
          · refine List.mem_append_right _ ?_
            rcases List.mem_cons.1 hy with rfl | hy
            · exact List.mem_cons_self
            · exact List.mem_cons_of_mem _ (hsub hy)

/-! ### Insertion -/

/-- The walk from the hole of `c`, filled with `t`, down to the place of `x`. -/
def descend (cmp : ι → ι → ℤ) (x : ι) : BinaryTree ι → Context ι → Context ι
  | .nil, c => c
  | .node y l r, c =>
    if 0 ≤ cmp x y then descend cmp x r (.right y l :: c) else descend cmp x l (.left y r :: c)

lemma fill_descend (t : BinaryTree ι) (c : Context ι) :
    fill (descend cmp x t c) (.node x .nil .nil) = fill c (insert cmp x t) := by
  induction t generalizing c with
  | nil => rfl
  | node y l r ihl ihr =>
      by_cases h : 0 ≤ cmp x y
      · simp [descend, insert, h, ihr, fill]
      · simp [descend, insert, h, ihl, fill]

lemma fill_descend_nil (t : BinaryTree ι) (c : Context ι) :
    fill (descend cmp x t c) .nil = fill c t := by
  induction t generalizing c with
  | nil => rfl
  | node y l r ihl ihr =>
      by_cases h : 0 ≤ cmp x y
      · simp [descend, h, ihr, fill]
      · simp [descend, h, ihl, fill]

lemma inorder_insert_perm (cmp : ι → ι → ℤ) (x : ι) (t : BinaryTree ι) :
    (inorder (insert cmp x t)).Perm (x :: inorder t) := by
  have h₁ := inorder_fill_perm (descend cmp x t []) (.node x .nil .nil)
  have h₂ := inorder_fill_perm (descend cmp x t []) .nil
  rw [fill_descend] at h₁
  rw [fill_descend_nil] at h₂
  exact h₁.trans (by simpa [fill] using h₂.symm)

lemma ordered_insert (cmp : ι → ι → ℤ) (x : ι) (h : Ordered cmp t) :
    Ordered cmp (insert cmp x t) := by
  induction t with
  | nil => simp [insert, ordered_node]
  | node y l r ihl ihr =>
      obtain ⟨hl, hr, hol, hor⟩ := ordered_node.1 h
      by_cases hxy : 0 ≤ cmp x y
      · rw [insert, if_pos hxy]
        refine ordered_node.2 ⟨hl, fun z hz => ?_, hol, ihr hor⟩
        rcases List.mem_cons.1 ((inorder_insert_perm cmp x r).mem_iff.1 hz) with rfl | hz
        · exact hxy
        · exact hr z hz
      · rw [insert, if_neg hxy]
        refine ordered_node.2 ⟨fun z hz => ?_, hr, ihl hol, hor⟩
        rcases List.mem_cons.1 ((inorder_insert_perm cmp x l).mem_iff.1 hz) with rfl | hz
        · exact not_le.1 hxy
        · exact hl z hz

/-- The new node comes directly behind the nodes that do not compare greater. -/
lemma inorder_insert (hc : TotalPreorderOn cmp Set.univ) (x : ι) (h : Ordered cmp t) :
    ∃ us ws, inorder t = us ++ ws ∧ inorder (insert cmp x t) = us ++ x :: ws ∧
      (∀ u ∈ us, cmp u x ≤ 0) ∧ ∀ w ∈ ws, 0 < cmp w x := by
  induction t with
  | nil => exact ⟨[], [], rfl, rfl, by simp, by simp⟩
  | node y l r ihl ihr =>
      obtain ⟨hl, hr, hol, hor⟩ := ordered_node.1 h
      by_cases hxy : 0 ≤ cmp x y
      · obtain ⟨us, ws, ht, hi, hus, hws⟩ := ihr hor
        have hyx : cmp y x ≤ 0 := (hc.nonneg_iff trivial trivial).1 hxy
        refine ⟨inorder l ++ y :: us, ws, by simp [ht], by simp [insert, hxy, hi], fun u hu => ?_,
          hws⟩
        rcases List.mem_append.1 hu with hu | hu
        · exact hc.trans u trivial y trivial x trivial (hl u hu).le hyx
        · rcases List.mem_cons.1 hu with rfl | hu
          · exact hyx
          · exact hus u hu
      · obtain ⟨us, ws, ht, hi, hus, hws⟩ := ihl hol
        have hyx : 0 < cmp y x := (hc.neg_iff x trivial y trivial).1 (not_le.1 hxy)
        refine ⟨us, ws ++ y :: inorder r, by simp [ht], by simp [insert, hxy, hi], hus,
          fun w hw => ?_⟩
        rcases List.mem_append.1 hw with hw | hw
        · exact hws w hw
        · rcases List.mem_cons.1 hw with rfl | hw
          · exact hyx
          · -- `w` does not compare less than `y`, which compares greater than `x`
            by_contra hle
            have hyw : cmp y w ≤ 0 := (hc.nonneg_iff trivial trivial).1 (hr w hw)
            exact absurd (hc.trans y trivial w trivial x trivial hyw (not_lt.1 hle)) (not_le.2 hyx)

/-- Inserting one node after the other is a stable sort. -/
lemma inorder_foldl_insert (hc : TotalPreorderOn cmp Set.univ) (xs : List ι) :
    Ordered cmp (xs.foldl (fun t x => insert cmp x t) .nil) ∧
      ListSort.IsStableSort cmp xs (inorder (xs.foldl (fun t x => insert cmp x t) .nil)) := by
  induction xs using List.reverseRecOn with
  | nil => exact ⟨trivial, List.Perm.nil, List.Pairwise.nil, fun _ => rfl⟩
  | append_singleton xs x ih =>
      rw [List.foldl_append, List.foldl_cons, List.foldl_nil]
      obtain ⟨us, ws, ht, hi, hus, hws⟩ := inorder_insert hc x ih.1
      rw [hi]
      exact ⟨ordered_insert cmp x ih.1, (ht ▸ ih.2).concat hc hus hws⟩

/-! ### Deletion -/

/-- The walk from the hole of `c` down to the leftmost node of the tree with root
`x` and subtrees `l` and `r`; with that node and its right subtree. -/
def leftmost : ι → BinaryTree ι → BinaryTree ι → Context ι → Context ι × ι × BinaryTree ι
  | x, .nil, r, c => (c, x, r)
  | x, .node y l' r', r, c => leftmost y l' r' (.left x r :: c)

lemma leftmost_node (x : ι) (l r : BinaryTree ι) (c : Context ι) :
    (leftmost x l r c).2.1 = (popLeft x l r).1 := by
  induction l generalizing x r c with
  | nil => rfl
  | node y l' r' ihl _ => exact ihl y r' (.left x r :: c)

lemma fill_leftmost (x : ι) (l r : BinaryTree ι) (c : Context ι) :
    fill (leftmost x l r c).1 (.node (leftmost x l r c).2.1 .nil (leftmost x l r c).2.2) =
      fill c (.node x l r) := by
  induction l generalizing x r c with
  | nil => rfl
  | node y l' r' ihl _ => exact ihl y r' (.left x r :: c)

lemma fill_leftmost_pop (x : ι) (l r : BinaryTree ι) (c : Context ι) :
    fill (leftmost x l r c).1 (leftmost x l r c).2.2 = fill c (popLeft x l r).2 := by
  induction l generalizing x r c with
  | nil => rfl
  | node y l' r' ihl _ => exact ihl y r' (.left x r :: c)

lemma inorder_popLeft (x : ι) (l r : BinaryTree ι) :
    inorder (.node x l r) = (popLeft x l r).1 :: inorder (popLeft x l r).2 := by
  induction l generalizing x r with
  | nil => rfl
  | node y l' r' ihl _ =>
      have h := ihl y r'
      simp only [inorder_node, popLeft] at h ⊢
      simp [h]

/-- The leftmost node is not greater than the rest. -/
lemma ordered_popLeft (hc : TotalPreorderOn cmp Set.univ) (h : Ordered cmp (.node x l r)) :
    Ordered cmp (popLeft x l r).2 ∧
      ∀ y ∈ inorder (popLeft x l r).2, 0 ≤ cmp y (popLeft x l r).1 := by
  induction l generalizing x r with
  | nil =>
      obtain ⟨-, hr, -, hor⟩ := ordered_node.1 h
      exact ⟨hor, hr⟩
  | node z l' r' ihl _ =>
      obtain ⟨hl, hr, hol, hor⟩ := ordered_node.1 h
      obtain ⟨ho, hge⟩ := ihl hol
      rw [inorder_popLeft] at hl
      have hs : cmp (popLeft z l' r').1 x < 0 := hl _ List.mem_cons_self
      refine ⟨ordered_node.2 ⟨fun y hy => hl y (List.mem_cons_of_mem _ hy), hr, ho, hor⟩, ?_⟩
      intro y hy
      rcases List.mem_append.1 hy with hy | hy
      · exact hge y hy
      · refine (hc.nonneg_iff trivial trivial).2 ?_
        rcases List.mem_cons.1 hy with rfl | hy
        · exact hs.le
        · exact hc.trans _ trivial _ trivial _ trivial hs.le
            ((hc.nonneg_iff trivial trivial).1 (hr y hy))

lemma inorder_deleteRoot (x : ι) (l r : BinaryTree ι) :
    inorder (deleteRoot (.node x l r)) = inorder l ++ inorder r := by
  cases l with
  | nil => rfl
  | node y l₁ r₁ =>
      cases r with
      | nil => simp [deleteRoot]
      | node z l₂ r₂ => rw [inorder_popLeft z l₂ r₂, deleteRoot, inorder_node]

lemma ordered_deleteRoot (hc : TotalPreorderOn cmp Set.univ) (h : Ordered cmp t) :
    Ordered cmp (deleteRoot t) := by
  match t with
  | .nil => trivial
  | .node x .nil r => exact (ordered_node.1 h).2.2.2
  | .node x (.node y l₁ r₁) .nil => exact (ordered_node.1 h).2.2.1
  | .node x (.node y l₁ r₁) (.node z l₂ r₂) =>
      obtain ⟨hl, hr, hol, hor⟩ := ordered_node.1 h
      obtain ⟨ho, hge⟩ := ordered_popLeft hc hor
      refine ordered_node.2 ⟨fun w hw => ?_, hge, hol, ho⟩
      -- the new root is not less than the old one
      have hs : 0 ≤ cmp (popLeft z l₂ r₂).1 x := by
        refine hr _ ?_
        rw [inorder_popLeft]
        exact List.mem_cons_self
      have hw' := hl w hw
      by_contra hlt
      have h₁ := (hc.nonneg_iff trivial trivial).1 (not_lt.1 hlt)
      have h₂ := (hc.nonneg_iff trivial trivial).1 hs
      have h₃ := (hc.nonneg_iff trivial trivial).2 (hc.trans _ trivial _ trivial _ trivial h₂ h₁)
      omega

variable [DecidableEq ι]

lemma delete_of_notMem (h : x ∉ inorder t) : delete x t = t := by
  induction t with
  | nil => rfl
  | node y l r ihl ihr =>
      simp only [inorder_node, List.mem_append, List.mem_cons, not_or] at h
      rw [delete, if_neg h.2.1, ihl h.1, ihr h.2.2]

/-- Where the node is, its subtree loses its root. -/
lemma delete_fill (hn : (inorder (fill c (.node x l r))).Nodup) :
    delete x (fill c (.node x l r)) = fill c (deleteRoot (.node x l r)) := by
  have hx : x ∉ outside c := by
    have h := (nodup_inorder_fill.1 hn).2.2
    exact fun hmem => h (by simp) hmem
  clear hn
  suffices h : ∀ t u, delete x t = u → delete x (fill c t) = fill c u from h _ _ (by simp [delete])
  induction c with
  | nil => exact fun t u h => h
  | cons f c ih =>
      intro t u h
      cases f with
      | left y r' =>
          rw [mem_outside_left, not_or, not_or] at hx
          refine ih hx.2.2 _ _ ?_
          rw [delete, if_neg hx.1, h, delete_of_notMem hx.2.1]
      | right y l' =>
          rw [mem_outside_right, not_or, not_or] at hx
          refine ih hx.2.2 _ _ ?_
          rw [delete, if_neg hx.1, h, delete_of_notMem hx.2.1]

/-- The other nodes keep their order. -/
lemma inorder_delete (hn : (inorder t).Nodup) : inorder (delete x t) = (inorder t).erase x := by
  by_cases hx : x ∈ inorder t
  · obtain ⟨c, l, r, rfl⟩ := exists_eq_fill_of_mem hx
    have hin : inorder (fill c (.node x l r)) =
        (before c ++ inorder l) ++ x :: (inorder r ++ after c) := by
      simp [inorder_fill]
    have hxb : x ∉ before c ++ inorder l := by
      rw [hin] at hn
      exact fun hmem => (List.nodup_append.1 hn).2.2 x hmem x List.mem_cons_self rfl
    rw [delete_fill hn, hin, List.erase_append_right _ hxb, List.erase_cons_head, inorder_fill,
      inorder_deleteRoot]
    simp
  · rw [delete_of_notMem hx, List.erase_of_not_mem hx]

lemma ordered_delete (hc : TotalPreorderOn cmp Set.univ) (hn : (inorder t).Nodup)
    (h : Ordered cmp t) : Ordered cmp (delete x t) := by
  by_cases hx : x ∈ inorder t
  · obtain ⟨c, l, r, rfl⟩ := exists_eq_fill_of_mem hx
    rw [delete_fill hn]
    refine h.fill_of_subset (ordered_deleteRoot hc h.of_fill) ?_
    rw [inorder_deleteRoot, inorder_node]
    intro y hy
    rcases List.mem_append.1 hy with hy | hy
    · exact List.mem_append_left _ hy
    · exact List.mem_append_right _ (List.mem_cons_of_mem _ hy)
  · rwa [delete_of_notMem hx]

end SearchTree

end DemoClass
