import DemoClass.Lib.SearchTree
import Mathlib.Algebra.Order.Ring.Nat

/-!
# Heights and mirror images of trees

An exchange of a subtree for one whose height differs by at most one changes the height of the
whole tree by at most one (`height_fill_le`, `height_fill_mono`); so does the insertion of a node
and the deletion of one.  In the mirror image of a tree the two subtrees of every node are
exchanged, and it is ordered only where the tree has at most one node (`ordered_mirror_iff`).
-/

namespace DemoClass

namespace SearchTree

open BinaryTree

variable {ι : Type} {cmp : ι → ι → ℤ} {x : ι} {t u l r : BinaryTree ι} {c : Context ι}

/-! ### Heights -/

lemma height_node (x : ι) (l r : BinaryTree ι) :
    (node x l r).height = max l.height r.height + 1 := rfl

lemma length_inorder (t : BinaryTree ι) : (inorder t).length = t.numNodes := by
  induction t with
  | nil => rfl
  | node x l r ihl ihr =>
      rw [inorder_node, List.length_append, List.length_cons, ihl, ihr, numNodes]
      omega

lemma numNodes_eq_zero : t.numNodes = 0 ↔ t = .nil := by
  cases t <;> simp

/-- A tree of height `n` has fewer than `2 ^ n` nodes. -/
lemma numNodes_lt (t : BinaryTree ι) : t.numNodes < 2 ^ t.height := by
  induction t with
  | nil => simp
  | node x l r ihl ihr =>
      have hl : 2 ^ l.height ≤ 2 ^ max l.height r.height :=
        Nat.pow_le_pow_right Nat.two_pos (le_max_left _ _)
      have hr : 2 ^ r.height ≤ 2 ^ max l.height r.height :=
        Nat.pow_le_pow_right Nat.two_pos (le_max_right _ _)
      rw [numNodes, height, Nat.pow_succ]
      omega

lemma height_fill_mono (h : u.height ≤ t.height) : (fill c u).height ≤ (fill c t).height := by
  induction c generalizing t u with
  | nil => exact h
  | cons f c ih =>
      cases f with
      | left x r =>
          refine ih ?_
          rw [height, height]
          omega
      | right x l =>
          refine ih ?_
          rw [height, height]
          omega

lemma height_fill_le (h : u.height ≤ t.height + 1) :
    (fill c u).height ≤ (fill c t).height + 1 := by
  induction c generalizing t u with
  | nil => exact h
  | cons f c ih =>
      cases f with
      | left x r =>
          refine ih ?_
          rw [height, height]
          omega
      | right x l =>
          refine ih ?_
          rw [height, height]
          omega

/-- An inserted node makes the tree higher by at most one. -/
lemma height_insert (cmp : ι → ι → ℤ) (x : ι) (t : BinaryTree ι) :
    t.height ≤ (insert cmp x t).height ∧ (insert cmp x t).height ≤ t.height + 1 := by
  have hnew := @fill_descend _ cmp x t []
  have hold := @fill_descend_nil _ cmp x t []
  rw [fill] at hnew hold
  constructor
  · calc t.height = (fill (descend cmp x t []) .nil).height := by rw [hold]
      _ ≤ (fill (descend cmp x t []) (.node x .nil .nil)).height := height_fill_mono (by simp)
      _ = (insert cmp x t).height := by rw [hnew]
  · calc (insert cmp x t).height
        = (fill (descend cmp x t []) (.node x .nil .nil)).height := by rw [hnew]
      _ ≤ (fill (descend cmp x t []) .nil).height + 1 := height_fill_le (by simp)
      _ = t.height + 1 := by rw [hold]

lemma height_popLeft (x : ι) (l r : BinaryTree ι) :
    (popLeft x l r).2.height ≤ (node x l r).height ∧
      (node x l r).height ≤ (popLeft x l r).2.height + 1 := by
  have hnode := fill_leftmost x l r []
  have hpop := fill_leftmost_pop x l r []
  rw [fill] at hnode hpop
  rw [← hnode, ← hpop]
  exact ⟨height_fill_mono (by simp), height_fill_le (by simp)⟩

lemma height_deleteRoot (t : BinaryTree ι) :
    (deleteRoot t).height ≤ t.height ∧ t.height ≤ (deleteRoot t).height + 1 := by
  match t with
  | .nil => simp [deleteRoot]
  | .node x .nil r => simp [deleteRoot]
  | .node x (.node y l₁ r₁) .nil => simp [deleteRoot]
  | .node x (.node y l₁ r₁) (.node z l₂ r₂) =>
      obtain ⟨hle, hge⟩ := height_popLeft z l₂ r₂
      rw [deleteRoot, height_node, height_node x]
      omega

/-- A deleted node makes the tree lower by at most one. -/
lemma height_delete [DecidableEq ι] (hn : (inorder t).Nodup) (x : ι) :
    (delete x t).height ≤ t.height ∧ t.height ≤ (delete x t).height + 1 := by
  by_cases hx : x ∈ inorder t
  · obtain ⟨c, l, r, rfl⟩ := exists_eq_fill_of_mem hx
    obtain ⟨hle, hge⟩ := height_deleteRoot (.node x l r)
    rw [delete_fill hn]
    exact ⟨height_fill_mono hle, height_fill_le hge⟩
  · rw [delete_of_notMem hx]
    exact ⟨le_rfl, Nat.le_succ _⟩

/-! ### Mirror images -/

/-- Exchange the subtrees of every node. -/
def mirror : BinaryTree ι → BinaryTree ι
  | .nil => .nil
  | .node x l r => .node x (mirror r) (mirror l)

/-- Exchange the subtrees of the root. -/
def swapRoot : BinaryTree ι → BinaryTree ι
  | .nil => .nil
  | .node x l r => .node x r l

lemma perm_inorder_swapRoot (t : BinaryTree ι) : (inorder (swapRoot t)).Perm (inorder t) := by
  cases t with
  | nil => exact List.Perm.refl _
  | node x l r =>
      rw [swapRoot, inorder_node, inorder_node]
      exact List.perm_middle.trans ((List.perm_append_comm.cons x).trans List.perm_middle.symm)

@[simp] lemma root?_swapRoot (t : BinaryTree ι) : root? (swapRoot t) = root? t := by
  cases t <;> rfl

@[simp] lemma mirror_nil : mirror (.nil : BinaryTree ι) = .nil := rfl

@[simp] lemma mirror_node : mirror (.node x l r) = .node x (mirror r) (mirror l) := rfl

@[simp] lemma mirror_mirror (t : BinaryTree ι) : mirror (mirror t) = t := by
  induction t with
  | nil => rfl
  | node x l r ihl ihr => rw [mirror_node, mirror_node, ihl, ihr]

@[simp] lemma root?_mirror (t : BinaryTree ι) : root? (mirror t) = root? t := by
  cases t <;> rfl

@[simp] lemma inorder_mirror (t : BinaryTree ι) : inorder (mirror t) = (inorder t).reverse := by
  induction t with
  | nil => rfl
  | node x l r ihl ihr => simp [ihl, ihr]

@[simp] lemma height_mirror (t : BinaryTree ι) : (mirror t).height = t.height := by
  induction t with
  | nil => rfl
  | node x l r ihl ihr => rw [mirror_node, height, height, ihl, ihr, max_comm]

/-- An ordered tree with two nodes has one whose mirrored children are on the wrong sides. -/
lemma ordered_mirror_iff (h : Ordered cmp t) : Ordered cmp (mirror t) ↔ t.numNodes ≤ 1 := by
  cases t with
  | nil => simp
  | node x l r =>
      obtain ⟨hl, hr, -, -⟩ := ordered_node.1 h
      constructor
      · intro hm
        rw [mirror_node, ordered_node, inorder_mirror, inorder_mirror] at hm
        have hlnil : inorder l = [] := by
          refine List.eq_nil_iff_forall_not_mem.2 fun y hy => ?_
          exact absurd (hl y hy) (not_lt.2 (hm.2.1 y (List.mem_reverse.2 hy)))
        have hrnil : inorder r = [] := by
          refine List.eq_nil_iff_forall_not_mem.2 fun y hy => ?_
          exact absurd (hm.1 y (List.mem_reverse.2 hy)) (not_lt.2 (hr y hy))
        rw [inorder_eq_nil.1 hlnil, inorder_eq_nil.1 hrnil]
        simp
      · intro hone
        rw [numNodes] at hone
        obtain rfl : l = .nil := numNodes_eq_zero.1 (by omega)
        obtain rfl : r = .nil := numNodes_eq_zero.1 (by omega)
        simp [ordered_node]

end SearchTree

end DemoClass
