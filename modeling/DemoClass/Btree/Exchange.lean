import DemoClass.Btree.Depth
import DemoClass.Btree.NoRecur

/-!
# A callback that changes the tree (`child_exchange` of `test.c`)

The recursive traversals read the links of a node behind the call of `todo` for it, so a callback
that writes them changes the way the traversal takes.  `child_exchange` exchanges the children of
its node.  In pre-order and in post-order every node is visited once, and the tree becomes its
mirror image (`preOrder_exchange`, `postOrder_exchange`).  In order, the traversal goes down twice
on the left and never on the right; all exchanges but the one at the root are undone
(`inOrder_exchange`).
-/

namespace DemoClass

namespace Btree

open SearchTree TreeStore

variable {ι : Type}

/-! ### The traversals, with what `todo` does to the links -/

section Functions

variable (todo : TreeStore ι → ι → TreeStore ι)

/-- The body of `__pre_order`, on the links and `cur`. -/
def _preOrderTodoBody : Comp.RecBody Fault (TreeStore ι × Option ι) (TreeStore ι) where
  body call w :=
    match w.2 with
    | none => pure w.1
    | some cur => do
      let s := todo w.1 cur
      let s ← call (s, (s.node cur).lchild)
      call (s, (s.node cur).rchild)
  le := by
    rintro f g n h ⟨s, _ | cur⟩
    · exact Comp.LeUpTo.refl n _
    · exact (h _).bind fun _ => h _

/-- The body of `__in_order`, on the links and `cur`. -/
def _inOrderTodoBody : Comp.RecBody Fault (TreeStore ι × Option ι) (TreeStore ι) where
  body call w :=
    match w.2 with
    | none => pure w.1
    | some cur => do
      let s ← call (w.1, (w.1.node cur).lchild)
      let s := todo s cur
      call (s, (s.node cur).rchild)
  le := by
    rintro f g n h ⟨s, _ | cur⟩
    · exact Comp.LeUpTo.refl n _
    · exact (h _).bind fun _ => h _

/-- The body of `__post_order`, on the links and `cur`. -/
def _postOrderTodoBody : Comp.RecBody Fault (TreeStore ι × Option ι) (TreeStore ι) where
  body call w :=
    match w.2 with
    | none => pure w.1
    | some cur => do
      let s ← call (w.1, (w.1.node cur).lchild)
      let s ← call (s, (s.node cur).rchild)
      pure (todo s cur)
  le := by
    rintro f g n h ⟨s, _ | cur⟩
    · exact Comp.LeUpTo.refl n _
    · exact (h _).bind fun _ => (h _).bind fun _ => Comp.LeUpTo.refl n _

/-- `__pre_order` -/
def _preOrderTodo (s : TreeStore ι) (cur : Option ι) : Comp Fault (TreeStore ι) :=
  Comp.recur (_preOrderTodoBody todo) (s, cur)

/-- `__in_order` -/
def _inOrderTodo (s : TreeStore ι) (cur : Option ι) : Comp Fault (TreeStore ι) :=
  Comp.recur (_inOrderTodoBody todo) (s, cur)

/-- `__post_order` -/
def _postOrderTodo (s : TreeStore ι) (cur : Option ι) : Comp Fault (TreeStore ι) :=
  Comp.recur (_postOrderTodoBody todo) (s, cur)

/-- `btree_pre_order` -/
def btreePreOrderTodo (info : BtreeInfo ι) : Comp Fault (BtreeInfo ι) := do
  let s ← _preOrderTodo todo info.store info.store.root
  return { info with store := s }

/-- `btree_in_order` -/
def btreeInOrderTodo (info : BtreeInfo ι) : Comp Fault (BtreeInfo ι) := do
  let s ← _inOrderTodo todo info.store info.store.root
  return { info with store := s }

/-- `btree_post_order` -/
def btreePostOrderTodo (info : BtreeInfo ι) : Comp Fault (BtreeInfo ι) := do
  let s ← _postOrderTodo todo info.store info.store.root
  return { info with store := s }

end Functions

variable [DecidableEq ι]

/-- `child_exchange` -/
def childExchange (s : TreeStore ι) (node : ι) : TreeStore ι :=
  let tmp := (s.node node).lchild
  let s := s.set (.lchild node) (s.node node).rchild
  s.set (.rchild node) tmp

/-! ### Exchanges at some of the nodes -/

/-- The children in each other's place. -/
def exchange (n : TreeLinks ι) : TreeLinks ι := ⟨n.parent, n.rchild, n.lchild⟩

/-- The children of the nodes `xs` are exchanged. -/
def exchangeAt (xs : List ι) (s : TreeStore ι) : TreeStore ι :=
  { s with node := fun y => if y ∈ xs then exchange (s.node y) else s.node y }

variable {s : TreeStore ι} {info : BtreeInfo ι} {cmp : ι → ι → ℤ} {t l r : BinaryTree ι}
  {p q : Option ι} {xs ys : List ι} {x y : ι}

@[simp] lemma exchangeAt_root (xs : List ι) (s : TreeStore ι) :
    (exchangeAt xs s).root = s.root := rfl

lemma exchangeAt_node_of_mem (h : y ∈ xs) : (exchangeAt xs s).node y = exchange (s.node y) :=
  if_pos h

lemma exchangeAt_node_of_notMem (h : y ∉ xs) : (exchangeAt xs s).node y = s.node y :=
  if_neg h

@[simp] lemma exchangeAt_nil (s : TreeStore ι) : exchangeAt [] s = s := by
  ext y <;> simp [exchangeAt]

lemma childExchange_eq (s : TreeStore ι) (x : ι) : childExchange s x = exchangeAt [x] s := by
  refine TreeStore.ext rfl ?_
  funext y
  by_cases hy : y = x
  · subst hy
    simp [childExchange, exchangeAt, exchange, TreeStore.set]
  · simp [childExchange, exchangeAt, TreeStore.set, hy]

/-- Exchanges at different nodes are made one after the other. -/
lemma exchangeAt_exchangeAt (h : xs.Disjoint ys) (s : TreeStore ι) :
    exchangeAt ys (exchangeAt xs s) = exchangeAt (xs ++ ys) s := by
  refine TreeStore.ext rfl ?_
  funext y
  by_cases hy : y ∈ ys
  · have hx : y ∉ xs := fun hx => h hx hy
    rw [exchangeAt_node_of_mem hy, exchangeAt_node_of_notMem hx,
      exchangeAt_node_of_mem (List.mem_append_right _ hy)]
  · rw [exchangeAt_node_of_notMem hy]
    by_cases hx : y ∈ xs
    · rw [exchangeAt_node_of_mem hx, exchangeAt_node_of_mem (List.mem_append_left _ hx)]
    · rw [exchangeAt_node_of_notMem hx,
        exchangeAt_node_of_notMem (by simp [hx, hy])]

lemma exchangeAt_congr (h : ∀ y, y ∈ xs ↔ y ∈ ys) (s : TreeStore ι) :
    exchangeAt xs s = exchangeAt ys s := by
  refine TreeStore.ext rfl ?_
  funext y
  simp only [exchangeAt, h y]

/-- Two exchanges at the same nodes leave the links as they were. -/
lemma exchangeAt_self (xs : List ι) (s : TreeStore ι) : exchangeAt xs (exchangeAt xs s) = s := by
  refine TreeStore.ext rfl ?_
  funext y
  by_cases hy : y ∈ xs
  · rw [exchangeAt_node_of_mem hy, exchangeAt_node_of_mem hy]
    rfl
  · rw [exchangeAt_node_of_notMem hy, exchangeAt_node_of_notMem hy]

/-- A tree does not notice exchanges outside it. -/
lemma Spans.exchangeAt (h : Spans s q t) (hd : (inorder t).Disjoint xs) :
    Spans (exchangeAt xs s) q t := by
  induction t generalizing q with
  | nil => exact h
  | node x l r ihl ihr =>
      obtain ⟨rfl, hl, hr⟩ := h
      have hx : (Btree.exchangeAt xs s).node x = s.node x :=
        exchangeAt_node_of_notMem fun hmem => hd (by simp) hmem
      refine ⟨rfl, ?_, ?_⟩
      · rw [hx]
        exact ihl hl fun y hy hmem => hd (by simp [hy]) hmem
      · rw [hx]
        exact ihr hr fun y hy hmem => hd (by simp [hy]) hmem

/-- Exchanges at all nodes give the mirror image. -/
lemma linked_mirror (h : s.Linked p t) (hsub : inorder t ⊆ xs) :
    (exchangeAt xs s).Linked p (mirror t) := by
  induction t generalizing p with
  | nil => trivial
  | node x l r ihl ihr =>
      obtain ⟨hx, hl, hr⟩ := linked_node.1 h
      refine linked_node.2 ⟨?_, ihr hr fun y hy => hsub (by simp [hy]),
        ihl hl fun y hy => hsub (by simp [hy])⟩
      rw [exchangeAt_node_of_mem (hsub (by simp)), hx, root?_mirror, root?_mirror]
      rfl

lemma rep_mirror (h : s.Rep t) : (exchangeAt (inorder t) s).Rep (mirror t) where
  nodup := by
    rw [inorder_mirror]
    exact List.nodup_reverse.2 h.nodup
  root := by rw [exchangeAt_root, root?_mirror, h.root]
  linked := linked_mirror h.linked (List.Subset.refl _)

/-! ### The traversals with `child_exchange` -/

omit [DecidableEq ι] in
lemma nodup_node (hn : (inorder (.node x l r)).Nodup) : x ∉ inorder l ∧ x ∉ inorder r ∧
    (inorder l).Nodup ∧ (inorder r).Nodup ∧ (inorder l).Disjoint (inorder r) := by
  rw [inorder_node, List.perm_middle.nodup_iff, List.nodup_cons, List.mem_append, not_or,
    List.nodup_append'] at hn
  exact ⟨hn.1.1, hn.1.2, hn.2.1, hn.2.2.1, hn.2.2.2⟩

lemma exchangeAt_node_root (s : TreeStore ι) (x : ι) :
    (exchangeAt [x] s).node x = exchange (s.node x) :=
  exchangeAt_node_of_mem List.mem_cons_self

omit [DecidableEq ι] in
lemma disjoint_singleton (h : x ∉ xs) : xs.Disjoint [x] := by
  intro y hy hmem
  obtain rfl : y = x := List.mem_singleton.1 hmem
  exact h hy

lemma preOrder_exchange (h : Spans s q t) (hn : (inorder t).Nodup) :
    (_preOrderTodo childExchange s q).Ends (.ok (exchangeAt (inorder t) s)) := by
  induction t generalizing s q with
  | nil =>
      obtain rfl : q = none := h
      rw [inorder_nil, exchangeAt_nil]
      exact Comp.Ends.recur (Comp.ends_pure.2 rfl)
  | node x l r ihl ihr =>
      obtain ⟨rfl, hl, hr⟩ := h
      obtain ⟨hxl, hxr, hnl, hnr, hlr⟩ := nodup_node hn
      -- behind the exchange at `x` the right subtree comes first
      have hfirst := ihr (hr.exchangeAt (disjoint_singleton hxr)) hnr
      have hsecond := ihl ((hl.exchangeAt (disjoint_singleton hxl)).exchangeAt hlr) hnl
      have heq : exchangeAt (inorder l) (exchangeAt (inorder r) (exchangeAt [x] s)) =
          exchangeAt (inorder (.node x l r)) s := by
        rw [exchangeAt_exchangeAt (disjoint_singleton hxr).symm, exchangeAt_exchangeAt]
        · exact exchangeAt_congr (fun y => by simp; tauto) s
        · intro y hy hmem
          rcases List.mem_append.1 hy with hy | hy
          · exact hxl (List.mem_singleton.1 hy ▸ hmem)
          · exact hlr hmem hy
      rw [← heq]
      refine Comp.Ends.recur ?_
      show (_preOrderTodo childExchange (childExchange s x)
        ((childExchange s x).node x).lchild >>= _).Ends _
      rw [childExchange_eq, exchangeAt_node_root]
      refine hfirst.bind ?_
      rw [exchangeAt_node_of_notMem hxr, exchangeAt_node_root]
      exact hsecond

lemma postOrder_exchange (h : Spans s q t) (hn : (inorder t).Nodup) :
    (_postOrderTodo childExchange s q).Ends (.ok (exchangeAt (inorder t) s)) := by
  induction t generalizing s q with
  | nil =>
      obtain rfl : q = none := h
      rw [inorder_nil, exchangeAt_nil]
      exact Comp.Ends.recur (Comp.ends_pure.2 rfl)
  | node x l r ihl ihr =>
      obtain ⟨rfl, hl, hr⟩ := h
      obtain ⟨hxl, hxr, hnl, hnr, hlr⟩ := nodup_node hn
      have hfirst := ihl hl hnl
      have hsecond := ihr (hr.exchangeAt hlr.symm) hnr
      have heq : exchangeAt [x] (exchangeAt (inorder r) (exchangeAt (inorder l) s)) =
          exchangeAt (inorder (.node x l r)) s := by
        rw [exchangeAt_exchangeAt hlr, exchangeAt_exchangeAt]
        · exact exchangeAt_congr (fun y => by simp; tauto) s
        · refine disjoint_singleton ?_
          simp [hxl, hxr]
      rw [← heq]
      refine Comp.Ends.recur (hfirst.bind ?_)
      rw [exchangeAt_node_of_notMem hxl]
      refine hsecond.bind ?_
      rw [childExchange_eq]
      exact Comp.ends_pure.2 rfl

omit [DecidableEq ι] in
lemma notMem_toList_root? (h : x ∉ inorder t) : x ∉ (root? t).toList := by
  intro hx
  exact h (mem_of_root? (Option.mem_toList.1 hx))

lemma spans_swapRoot (h : Spans s q t) (hn : (inorder t).Nodup) :
    Spans (exchangeAt (root? t).toList s) q (swapRoot t) := by
  cases t with
  | nil => exact h
  | node x l r =>
      obtain ⟨rfl, hl, hr⟩ := h
      obtain ⟨hxl, hxr, -, -, -⟩ := nodup_node hn
      refine ⟨rfl, ?_, ?_⟩
      · rw [root?_node, Option.toList_some, exchangeAt_node_root]
        exact hr.exchangeAt (disjoint_singleton hxr)
      · rw [root?_node, Option.toList_some, exchangeAt_node_root]
        exact hl.exchangeAt (disjoint_singleton hxl)

/-- The left subtree is visited, gets behind its node, and is visited again: what the first visit
did the second one undoes. -/
lemma inOrder_exchange (h : Spans s q t) (hn : (inorder t).Nodup) :
    (_inOrderTodo childExchange s q).Ends (.ok (exchangeAt (root? t).toList s)) := by
  induction hsize : t.numNodes using Nat.strongRecOn generalizing s q t with
  | ind n ih =>
      cases t with
      | nil =>
          obtain rfl : q = none := h
          rw [root?_nil, Option.toList_none, exchangeAt_nil]
          exact Comp.Ends.recur (Comp.ends_pure.2 rfl)
      | node x l r =>
          obtain ⟨rfl, hl, -⟩ := h
          obtain ⟨hxl, hxr, hnl, -, -⟩ := nodup_node hn
          have hlt : l.numNodes < n := by
            rw [← hsize, BinaryTree.numNodes]
            omega
          have hlt' : (swapRoot l).numNodes < n := by
            rwa [← length_inorder, (perm_inorder_swapRoot l).length_eq, length_inorder]
          have hperm := perm_inorder_swapRoot l
          have hfirst := ih _ hlt hl hnl rfl
          have hsecond := ih _ hlt' ((spans_swapRoot hl hnl).exchangeAt
            (disjoint_singleton fun hmem => hxl (hperm.mem_iff.1 hmem))) (hperm.nodup_iff.2 hnl) rfl
          have hroot := notMem_toList_root? hxl
          have heq : exchangeAt (root? (swapRoot l)).toList (exchangeAt [x]
              (exchangeAt (root? l).toList s)) = exchangeAt [x] s := by
            have hcomm : exchangeAt ((root? l).toList ++ [x]) s =
                exchangeAt ([x] ++ (root? l).toList) s :=
              exchangeAt_congr (fun y => by simp [or_comm]) s
            rw [root?_swapRoot, exchangeAt_exchangeAt (disjoint_singleton hroot), hcomm,
              ← exchangeAt_exchangeAt (disjoint_singleton hroot).symm, exchangeAt_self]
          rw [root?_node, Option.toList_some, ← heq]
          refine Comp.Ends.recur (hfirst.bind ?_)
          show (_inOrderTodo childExchange (childExchange _ x)
            ((childExchange _ x).node x).rchild).Ends _
          rw [childExchange_eq, exchangeAt_node_root, exchangeAt_node_of_notMem hroot]
          exact hsecond

/-! ### After a run -/

omit [DecidableEq ι] in
/-- In the store of a search tree the subtrees are ordered. -/
lemma ordered_of_isSearchTree {S : Finset ι} (h : IsSearchTree info S)
    (hl : info.store.Linked p t) (hS : ∀ x ∈ inorder t, x ∈ S) : Ordered info.cmp t := by
  induction t generalizing p with
  | nil => trivial
  | node x l r ihl ihr =>
      obtain ⟨hx, hll, hlr⟩ := linked_node.1 hl
      have hxS : x ∈ S := hS x (by simp)
      refine ordered_node.2 ⟨fun y hy => ?_, fun y hy => ?_,
        ihl hll fun y hy => hS y (by simp [hy]), ihr hlr fun y hy => hS y (by simp [hy])⟩
      · refine h.left_lt x hxS y ?_
        rw [hx]
        exact hll.below_iff.2 hy
      · refine h.right_ge x hxS y ?_
        rw [hx]
        exact hlr.below_iff.2 hy

/-- The links with the exchanges at some of the nodes. -/
def exchangedAt (xs : List ι) (info : BtreeInfo ι) : BtreeInfo ι :=
  { info with store := exchangeAt xs info.store }

lemma exchangedAt_self (xs : List ι) (info : BtreeInfo ι) :
    exchangedAt xs (exchangedAt xs info) = info := by
  simp [exchangedAt, exchangeAt_self]

lemma btreePreOrder_exchange (h : info.store.Rep t) :
    (btreePreOrderTodo childExchange info).Ends (.ok (exchangedAt (inorder t) info)) :=
  (preOrder_exchange (spans_of_rep h) h.nodup).bind (Comp.ends_pure.2 rfl)

lemma btreePostOrder_exchange (h : info.store.Rep t) :
    (btreePostOrderTodo childExchange info).Ends (.ok (exchangedAt (inorder t) info)) :=
  (postOrder_exchange (spans_of_rep h) h.nodup).bind (Comp.ends_pure.2 rfl)

lemma btreeInOrder_exchange (h : info.store.Rep t) :
    (btreeInOrderTodo childExchange info).Ends (.ok (exchangedAt (root? t).toList info)) :=
  (inOrder_exchange (spans_of_rep h) h.nodup).bind (Comp.ends_pure.2 rfl)

lemma exchangedAt_mirror (t : BinaryTree ι) (info : BtreeInfo ι) :
    exchangedAt (inorder (mirror t)) info = exchangedAt (inorder t) info := by
  have hmem : ∀ x, x ∈ inorder (mirror t) ↔ x ∈ inorder t := fun x => by simp
  rw [exchangedAt, exchangeAt_congr hmem, exchangedAt]

lemma rep_swapRoot (h : s.Rep t) : (exchangeAt (root? t).toList s).Rep (swapRoot t) := by
  refine ⟨(perm_inorder_swapRoot t).nodup_iff.2 h.nodup, ?_, ?_⟩
  · rw [exchangeAt_root, root?_swapRoot, h.root]
  · cases t with
    | nil => trivial
    | node x l r =>
        obtain ⟨hx, hl, hr⟩ := linked_node.1 h.linked
        obtain ⟨hxl, hxr, -, -, -⟩ := nodup_node h.nodup
        rw [root?_node, Option.toList_some]
        refine linked_node.2 ⟨?_, hr.congr fun y hy => ?_, hl.congr fun y hy => ?_⟩
        · rw [exchangeAt_node_root, hx]
          rfl
        · exact exchangeAt_node_of_notMem fun hmem => hxr (List.mem_singleton.1 hmem ▸ hy)
        · exact exchangeAt_node_of_notMem fun hmem => hxl (List.mem_singleton.1 hmem ▸ hy)

/-- The mirror image of a search tree is one only for trees of at most one node. -/
lemma isSearchTree_exchangedAt_iff {S : Finset ι} (h : Holds info S t) :
    IsSearchTree (exchangedAt (inorder t) info) S ↔ S.card ≤ 1 := by
  have hrep := rep_mirror h.rep
  have hmem : ∀ x, x ∈ inorder (mirror t) ↔ x ∈ S := fun x => by
    rw [inorder_mirror, List.mem_reverse, h.mem_iff]
  rw [card_eq_numNodes h.rep.nodup h.mem_iff, ← ordered_mirror_iff h.ordered]
  constructor
  · intro hsearch
    have ho := ordered_of_isSearchTree hsearch hrep.linked fun x hx => (hmem x).1 hx
    exact ho
  · intro ho
    exact Holds.isSearchTree ⟨hrep, ho, hmem⟩

/-- So it is after a run with a total preorder. -/
lemma isSearchTree_exchangedAt_run_iff {cmp : ι → ι → ℤ} {node : ι → TreeLinks ι}
    {ops : List (Op ι)} (hc : TotalPreorderOn cmp Set.univ) (hops : AllAllowed ∅ ops)
    (hrun : (run (btreeInit node cmp) ops).Ends (.ok info))
    (hmem : ∀ x, x ∈ inorder t ↔ x ∈ nodesOf ops) :
    IsSearchTree (exchangedAt (inorder t) info) (nodesOf ops) ↔ (nodesOf ops).card ≤ 1 := by
  obtain ⟨info', hends, -, h⟩ := (holds_btreeInit node cmp).run hc hops
  obtain rfl : info = info' := by simpa using hrun.unique hends
  have hsame : ∀ x, x ∈ inorder t ↔ x ∈ inorder (ops.foldl (Op.onTree cmp) .nil) := fun x =>
    (hmem x).trans (h.mem_iff x).symm
  rw [exchangedAt, exchangeAt_congr hsame]
  exact isSearchTree_exchangedAt_iff h

/-- **Exchanging the children in a traversal.**  After any run of pushes and deletions,
`btree_pre_order` and `btree_post_order` with `child_exchange` both leave the mirror image of the
tree, and a second call of either gives back every link; where the comparison is a total preorder,
the mirror image is a search tree only when there is at most one node.  `btree_in_order` exchanges
the two subtrees of the root and nothing else, and a second call gives back every link as well. -/
theorem exchange_mirrors (cmp : ι → ι → ℤ) (node : ι → TreeLinks ι) (ops : List (Op ι))
    (hops : AllAllowed ∅ ops) :
    ∃ info t, (run (btreeInit node cmp) ops).Ends (.ok info) ∧ info.store.Rep t ∧
      (∀ x, x ∈ inorder t ↔ x ∈ nodesOf ops) ∧
      (∃ info', (btreePreOrderTodo childExchange info).Ends (.ok info') ∧
        (btreePostOrderTodo childExchange info).Ends (.ok info') ∧ info'.store.Rep (mirror t) ∧
        (btreePreOrderTodo childExchange info').Ends (.ok info) ∧
        (btreePostOrderTodo childExchange info').Ends (.ok info) ∧
        (TotalPreorderOn cmp Set.univ →
          (IsSearchTree info' (nodesOf ops) ↔ (nodesOf ops).card ≤ 1))) ∧
      ∃ info', (btreeInOrderTodo childExchange info).Ends (.ok info') ∧
        info'.store.Rep (swapRoot t) ∧ (btreeInOrderTodo childExchange info').Ends (.ok info) := by
  obtain ⟨info, t, hrun, hrep, hmem⟩ := run_btreeInit node cmp hops
  refine ⟨info, t, hrun, hrep, hmem, ⟨_, btreePreOrder_exchange hrep, btreePostOrder_exchange hrep,
    rep_mirror hrep, ?_, ?_, fun hc => isSearchTree_exchangedAt_run_iff hc hops hrun hmem⟩,
    _, btreeInOrder_exchange hrep, rep_swapRoot hrep, ?_⟩
  · have hback := @btreePreOrder_exchange _ _ (exchangedAt _ info) _ (rep_mirror hrep)
    rwa [exchangedAt_mirror, exchangedAt_self] at hback
  · have hback := @btreePostOrder_exchange _ _ (exchangedAt _ info) _ (rep_mirror hrep)
    rwa [exchangedAt_mirror, exchangedAt_self] at hback
  · have hback := @btreeInOrder_exchange _ _ (exchangedAt _ info) _ (rep_swapRoot hrep)
    rwa [root?_swapRoot, exchangedAt_self] at hback

/-- Three nodes after a deletion. -/
theorem exchange_mirrors_three : ∃ info info' t,
    (run (btreeInit (fun _ => ⟨none, none, none⟩) fun a b : ℕ => (a : ℤ) - b)
      [.push 4, .push 2, .push 6, .push 3, .del 4]).Ends (.ok info) ∧ info.store.Rep t ∧
    (btreePreOrderTodo childExchange info).Ends (.ok info') ∧ info'.store.Rep (mirror t) ∧
    ¬ IsSearchTree info' {2, 3, 6} := by
  have hc : TotalPreorderOn (fun a b : ℕ => (a : ℤ) - b) Set.univ :=
    ⟨fun a _ b _ => by omega, fun a _ b _ d _ => by omega⟩
  obtain ⟨info, t, hrun, hrep, -, ⟨info', hpre, -, hmirror, -, -, hsearch⟩, -⟩ :=
    exchange_mirrors (fun a b : ℕ => (a : ℤ) - b) (fun _ => ⟨none, none, none⟩)
      [.push 4, .push 2, .push 6, .push 3, .del 4] (by decide)
  have hS : nodesOf [.push 4, .push 2, .push 6, .push 3, .del 4] = ({2, 3, 6} : Finset ℕ) := by
    decide
  rw [hS] at hsearch
  exact ⟨info, info', t, hrun, hrep, hpre, hmirror, fun h => absurd ((hsearch hc).1 h) (by decide)⟩

end Btree

end DemoClass
