import DemoClass.Btree.Refine
import Mathlib.Data.Finset.Erase
import Mathlib.Data.Finset.Insert

/-!
# Runs of a binary tree

A run is a sequence of calls of `btree_push` and `btree_del` from `btree_init` on.
A node may be pushed when it is not in the tree and deleted when it is in it.  On
the trees, such a call is an insertion or a deletion (`Op.onTree`), and the store
follows (`Holds.runOp`, `Holds.run`).  When the comparison is a total preorder, the
tree stays a search tree (`run_isSearchTree`).
-/

namespace DemoClass

namespace Btree

open SearchTree TreeStore

/-- A call of `btree_push` or `btree_del`. -/
inductive Op (ι : Type)
  | push (node : ι)
  | del (node : ι)

namespace Op

variable {ι : Type} [DecidableEq ι]

/-- What the call makes of the nodes in the tree. -/
def nodes (S : Finset ι) : Op ι → Finset ι
  | .push x => insert x S
  | .del x => S.erase x

/-- Only nodes outside the tree are pushed, and only nodes in it are deleted. -/
def Allowed (S : Finset ι) : Op ι → Prop
  | .push x => x ∉ S
  | .del x => x ∈ S

instance (S : Finset ι) : DecidablePred (Op.Allowed S)
  | .push x => inferInstanceAs (Decidable (x ∉ S))
  | .del x => inferInstanceAs (Decidable (x ∈ S))

/-- What the call makes of the tree. -/
def onTree (cmp : ι → ι → ℤ) (t : BinaryTree ι) : Op ι → BinaryTree ι
  | .push x => SearchTree.insert cmp x t
  | .del x => delete x t

/-- The call. -/
def run (info : BtreeInfo ι) : Op ι → Comp Fault (BtreeInfo ι)
  | .push x => btreePush info x
  | .del x => Prod.fst <$> btreeDel info x

end Op

variable {ι : Type} [DecidableEq ι]

/-- Every call is allowed when its turn comes, from the nodes `S` on. -/
def AllAllowed : Finset ι → List (Op ι) → Prop
  | _, [] => True
  | S, op :: ops => op.Allowed S ∧ AllAllowed (op.nodes S) ops

instance : ∀ (S : Finset ι) (ops : List (Op ι)), Decidable (AllAllowed S ops)
  | _, [] => isTrue trivial
  | S, op :: ops =>
    have := instDecidableAllAllowed (op.nodes S) ops
    inferInstanceAs (Decidable (op.Allowed S ∧ AllAllowed (op.nodes S) ops))

/-- The nodes that were pushed and not deleted since. -/
def nodesOf (ops : List (Op ι)) : Finset ι := ops.foldl Op.nodes ∅

/-- The calls one after the other. -/
def run (info : BtreeInfo ι) (ops : List (Op ι)) : Comp Fault (BtreeInfo ι) :=
  ops.foldlM Op.run info

/-- The tree `t` over the nodes `S` is in the store, and it is ordered. -/
structure Holds (info : BtreeInfo ι) (S : Finset ι) (t : BinaryTree ι) : Prop where
  rep : info.store.Rep t
  ordered : Ordered info.cmp t
  mem_iff : ∀ x, x ∈ inorder t ↔ x ∈ S

variable {info : BtreeInfo ι} {S : Finset ι} {t : BinaryTree ι}

omit [DecidableEq ι] in
lemma holds_btreeInit (node : ι → TreeLinks ι) (cmp : ι → ι → ℤ) :
    Holds (btreeInit node cmp) ∅ .nil where
  rep := rep_nil rfl
  ordered := trivial
  mem_iff := by simp

/-- One call, whatever the comparison is. -/
lemma runOp_rep (h : info.store.Rep t) (hS : ∀ x, x ∈ inorder t ↔ x ∈ S) {op : Op ι}
    (hop : op.Allowed S) : ∃ info', (op.run info).Ends (.ok info') ∧ info'.cmp = info.cmp ∧
      info'.store.Rep (op.onTree info.cmp t) ∧
      ∀ x, x ∈ inorder (op.onTree info.cmp t) ↔ x ∈ op.nodes S := by
  cases op with
  | push x =>
      have hx : x ∉ inorder t := fun hmem => hop ((hS x).1 hmem)
      obtain ⟨info', hends, hcmp, hrep⟩ := btreePush_ends h hx
      refine ⟨info', hends, hcmp, hrep, fun y => ?_⟩
      rw [Op.onTree, (inorder_insert_perm info.cmp x t).mem_iff, List.mem_cons, hS, Op.nodes,
        Finset.mem_insert]
  | del x =>
      obtain ⟨info', hends, hcmp, hrep⟩ := btreeDel_ends h ((hS x).2 hop)
      refine ⟨info', hends.bind (Comp.ends_pure.2 rfl), hcmp, hrep, fun y => ?_⟩
      rw [Op.onTree, inorder_delete h.nodup, h.nodup.mem_erase_iff, hS, Op.nodes,
        Finset.mem_erase]

/-- A run, whatever the comparison is. -/
lemma run_rep {ops : List (Op ι)} (h : info.store.Rep t) (hS : ∀ x, x ∈ inorder t ↔ x ∈ S)
    (hops : AllAllowed S ops) : ∃ info' t', (run info ops).Ends (.ok info') ∧
      info'.store.Rep t' ∧ ∀ x, x ∈ inorder t' ↔ x ∈ ops.foldl Op.nodes S := by
  induction ops generalizing info S t with
  | nil => exact ⟨info, t, Comp.ends_pure.2 rfl, h, hS⟩
  | cons op ops ih =>
      obtain ⟨info₁, hends₁, -, h₁, hS₁⟩ := runOp_rep h hS hops.1
      obtain ⟨info₂, t', hends₂, h₂⟩ := ih h₁ hS₁ hops.2
      refine ⟨info₂, t', ?_, h₂⟩
      rw [run, List.foldlM_cons]
      exact hends₁.bind hends₂

/-- A run from `btree_init` on. -/
lemma run_btreeInit (node : ι → TreeLinks ι) (cmp : ι → ι → ℤ) {ops : List (Op ι)}
    (hops : AllAllowed ∅ ops) : ∃ info t, (run (btreeInit node cmp) ops).Ends (.ok info) ∧
      info.store.Rep t ∧ ∀ x, x ∈ inorder t ↔ x ∈ nodesOf ops := by
  have hempty : (btreeInit node cmp).store.Rep .nil := rep_nil rfl
  exact run_rep hempty (by simp) hops

/-- One call. -/
lemma Holds.runOp (hc : TotalPreorderOn info.cmp Set.univ) (h : Holds info S t) {op : Op ι}
    (hop : op.Allowed S) : ∃ info', (op.run info).Ends (.ok info') ∧ info'.cmp = info.cmp ∧
      Holds info' (op.nodes S) (op.onTree info.cmp t) := by
  obtain ⟨info', hends, hcmp, hrep, hS⟩ := runOp_rep h.rep h.mem_iff hop
  refine ⟨info', hends, hcmp, hrep, ?_, hS⟩
  rw [hcmp]
  cases op with
  | push x => exact ordered_insert info.cmp x h.ordered
  | del x => exact ordered_delete hc h.rep.nodup h.ordered

/-- A run: the tree follows the calls. -/
lemma Holds.run {ops : List (Op ι)} (hc : TotalPreorderOn info.cmp Set.univ) (h : Holds info S t)
    (hops : AllAllowed S ops) : ∃ info', (run info ops).Ends (.ok info') ∧ info'.cmp = info.cmp ∧
      Holds info' (ops.foldl Op.nodes S) (ops.foldl (Op.onTree info.cmp) t) := by
  induction ops generalizing info S t with
  | nil => exact ⟨info, Comp.ends_pure.2 rfl, rfl, h⟩
  | cons op ops ih =>
      obtain ⟨info₁, hends₁, hcmp₁, h₁⟩ := h.runOp hc hops.1
      obtain ⟨info₂, hends₂, hcmp₂, h₂⟩ := ih (hcmp₁ ▸ hc) h₁ hops.2
      refine ⟨info₂, ?_, hcmp₂.trans hcmp₁, ?_⟩
      · rw [Btree.run, List.foldlM_cons]
        exact hends₁.bind hends₂
      · rw [hcmp₁] at h₂
        exact h₂

/-! ### Search trees in the store -/

/-- The nodes `S` form a search tree in the store of `info`. -/
structure IsSearchTree (info : BtreeInfo ι) (S : Finset ι) : Prop where
  /-- The links are those of a finite tree in which every node occurs once. -/
  tree : ∃ t, info.store.Rep t
  below_root_iff : ∀ x, info.store.Below info.store.root x ↔ x ∈ S
  root_parent : ∀ x, info.store.root = some x → (info.store.node x).parent = none
  lchild_parent : ∀ x ∈ S, ∀ y, (info.store.node x).lchild = some y →
    (info.store.node y).parent = some x
  rchild_parent : ∀ x ∈ S, ∀ y, (info.store.node x).rchild = some y →
    (info.store.node y).parent = some x
  left_lt : ∀ x ∈ S, ∀ y, info.store.Below (info.store.node x).lchild y → info.cmp y x < 0
  right_ge : ∀ x ∈ S, ∀ y, info.store.Below (info.store.node x).rchild y → 0 ≤ info.cmp y x

omit [DecidableEq ι] in
lemma Holds.isSearchTree (h : Holds info S t) : IsSearchTree info S := by
  -- the subtrees of a node, and that they are in the store below it
  have hnode : ∀ x ∈ S, ∃ l r, (∀ y ∈ inorder l, info.cmp y x < 0) ∧
      (∀ y ∈ inorder r, 0 ≤ info.cmp y x) ∧ (info.store.node x).lchild = root? l ∧
      (info.store.node x).rchild = root? r ∧ info.store.Linked (some x) l ∧
      info.store.Linked (some x) r := by
    intro x hx
    obtain ⟨c, l, r, ht, hn, hl, hr, -⟩ := h.rep.exists_node ((h.mem_iff x).2 hx)
    obtain ⟨hlt, hge, -, -⟩ := ordered_node.1 (Ordered.of_fill (c := c) (ht ▸ h.ordered))
    exact ⟨l, r, hlt, hge, by rw [hn], by rw [hn], hl, hr⟩
  refine ⟨⟨t, h.rep⟩, fun x => h.rep.below_root_iff.trans (h.mem_iff x), fun x hx => ?_, ?_, ?_,
    ?_, ?_⟩
  · exact h.rep.linked.parent_eq (h.rep.root ▸ hx)
  · intro x hx y hy
    obtain ⟨l, r, -, -, hl, -, hln, -⟩ := hnode x hx
    exact hln.parent_eq (hl ▸ hy)
  · intro x hx y hy
    obtain ⟨l, r, -, -, -, hr, -, hrn⟩ := hnode x hx
    exact hrn.parent_eq (hr ▸ hy)
  · intro x hx y hy
    obtain ⟨l, r, hlt, -, hl, -, hln, -⟩ := hnode x hx
    exact hlt y (hln.below_iff.1 (hl ▸ hy))
  · intro x hx y hy
    obtain ⟨l, r, -, hge, -, hr, -, hrn⟩ := hnode x hx
    exact hge y (hrn.below_iff.1 (hr ▸ hy))

/-- **Runs of a binary tree.**  Every sequence of pushes of nodes that are not in the
tree and deletions of nodes that are in it runs to its end and leaves a search tree
over the nodes pushed and not deleted since. -/
theorem run_isSearchTree (cmp : ι → ι → ℤ) (hc : TotalPreorderOn cmp Set.univ)
    (node : ι → TreeLinks ι) (ops : List (Op ι)) (hops : AllAllowed ∅ ops) :
    ∃ info, (run (btreeInit node cmp) ops).Ends (.ok info) ∧ info.cmp = cmp ∧
      IsSearchTree info (nodesOf ops) := by
  obtain ⟨info, hends, hcmp, h⟩ := (holds_btreeInit node cmp).run hc hops
  exact ⟨info, hends, hcmp, h.isSearchTree⟩

/-- Nodes compared by their tens: two nodes that compare equal, and the deletion of a
root with two subtrees. -/
theorem run_isSearchTree_tens :
    ∃ info, (run (btreeInit (fun _ => ⟨none, none, none⟩)
        fun a b : ℕ => ((a / 10 : ℕ) : ℤ) - ((b / 10 : ℕ) : ℤ))
      [.push 50, .push 30, .push 70, .push 60, .push 61, .del 50, .push 50, .del 60]).Ends
        (.ok info) ∧ IsSearchTree info {30, 70, 61, 50} := by
  have hc : TotalPreorderOn (fun a b : ℕ => ((a / 10 : ℕ) : ℤ) - ((b / 10 : ℕ) : ℤ)) Set.univ :=
    ⟨fun a _ b _ => by omega, fun a _ b _ d _ => by omega⟩
  obtain ⟨info, hends, -, h⟩ := run_isSearchTree _ hc (fun _ => ⟨none, none, none⟩)
    [.push 50, .push 30, .push 70, .push 60, .push 61, .del 50, .push 50, .del 60] (by decide)
  have hS : nodesOf [.push 50, .push 30, .push 70, .push 60, .push 61, .del 50, .push 50, .del 60] =
      ({30, 70, 61, 50} : Finset ℕ) := by decide
  exact ⟨info, hends, hS ▸ h⟩

end Btree

end DemoClass
