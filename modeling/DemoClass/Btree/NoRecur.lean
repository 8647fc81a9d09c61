import DemoClass.Btree.Traverse

/-!
# Pre-order and in-order without recursion (`btree.c`)

`btree_pre_order_norecur` and `btree_in_order_norecur` go down to the left, keep the nodes
they pass on a stack and go on at the right child of the node they take from it.  They
differ in the moment at which they call `todo`: when a node is pushed, or when it is
popped.  `walk_subtree` is about any such loop, and gives both (`norecur_eq`).
-/

namespace DemoClass

namespace Btree

open SearchTree TreeStore

variable {ι : Type}

/-! ### The functions -/

/-- The body of `__pre_order`, on `cur` and the nodes visited so far. -/
def _preOrderBody (s : TreeStore ι) : Comp.RecBody Fault (Option ι × List ι) (List ι) where
  body call w :=
    match w.1 with
    | none => pure w.2
    | some cur => do
      let visited ← call ((s.node cur).lchild, w.2 ++ [cur])
      call ((s.node cur).rchild, visited)
  le := by
    rintro f g n h ⟨_ | cur, visited⟩
    · exact Comp.LeUpTo.refl n _
    · exact (h _).bind fun _ => h _

/-- `__pre_order` -/
def _preOrder (s : TreeStore ι) (w : Option ι × List ι) : Comp Fault (List ι) :=
  Comp.recur (_preOrderBody s) w

/-- `btree_pre_order` -/
def btreePreOrder (info : BtreeInfo ι) : Comp Fault (List ι) :=
  _preOrder info.store (info.store.root, [])

/-- The variables of the two functions without recursion, with the nodes visited so far. -/
structure Walk (ι : Type) where
  stack : StackInfo (Option ι)
  cur : Option ι
  visited : List ι

/-- One round of the loop of `btree_pre_order_norecur`. -/
def btreePreOrderNorecurBody (s : TreeStore ι) (w : Walk ι) : Comp Fault (Walk ι ⊕ Walk ι) :=
  if stackIsEmpty w.stack ∧ w.cur = none then pure (.inr w)
  else match w.cur with
    | some cur =>
      pure (.inl ⟨stackPush w.stack (some cur), (s.node cur).lchild, w.visited ++ [cur]⟩)
    | none => do
      let (_, stack, cur) := stackPop w.stack w.cur
      let cur ← deref cur
      pure (.inl ⟨stack, (s.node cur).rchild, w.visited⟩)

/-- `btree_pre_order_norecur`: the nodes visited, and the stack that is destroyed at the
end. -/
def btreePreOrderNorecur (info : BtreeInfo ι) : Comp Fault (List ι × StackInfo (Option ι)) := do
  let w ← Comp.loop (btreePreOrderNorecurBody info.store) ⟨[], info.store.root, []⟩
  pure (w.visited, w.stack)

/-- One round of the loop of `btree_in_order_norecur`. -/
def btreeInOrderNorecurBody (s : TreeStore ι) (w : Walk ι) : Comp Fault (Walk ι ⊕ Walk ι) :=
  if stackIsEmpty w.stack ∧ w.cur = none then pure (.inr w)
  else match w.cur with
    | some cur => pure (.inl ⟨stackPush w.stack (some cur), (s.node cur).lchild, w.visited⟩)
    | none => do
      let (_, stack, cur) := stackPop w.stack w.cur
      let cur ← deref cur
      pure (.inl ⟨stack, (s.node cur).rchild, w.visited ++ [cur]⟩)

/-- `btree_in_order_norecur`: the nodes visited, and the stack that is destroyed at the
end. -/
def btreeInOrderNorecur (info : BtreeInfo ι) : Comp Fault (List ι × StackInfo (Option ι)) := do
  let w ← Comp.loop (btreeInOrderNorecurBody info.store) ⟨[], info.store.root, []⟩
  pure (w.visited, w.stack)

/-! ### The recursive functions -/

/-- A node, then the nodes below its left child, then those below its right child. -/
def preorder : BinaryTree ι → List ι
  | .nil => []
  | .node x l r => x :: (preorder l ++ preorder r)

variable {s : TreeStore ι} {info : BtreeInfo ι} {t : BinaryTree ι} {q : Option ι}

lemma preOrder_ends (h : Spans s q t) (visited : List ι) :
    (_preOrder s (q, visited)).Ends (.ok (visited ++ preorder t)) := by
  induction t generalizing q visited with
  | nil =>
      obtain rfl : q = none := h
      exact Comp.Ends.recur (by simp [_preOrderBody, preorder])
  | node x l r ihl ihr =>
      obtain ⟨rfl, hl, hr⟩ := h
      refine Comp.Ends.recur ((ihl hl (visited ++ [x])).bind ?_)
      have h := ihr hr (visited ++ [x] ++ preorder l)
      have hlist : visited ++ [x] ++ preorder l ++ preorder r =
          visited ++ preorder (.node x l r) := by simp [preorder]
      rwa [hlist] at h

/-- **`btree_pre_order`** visits a node before its children. -/
theorem btreePreOrder_ends (h : Spans info.store info.store.root t) :
    (btreePreOrder info).Ends (.ok (preorder t)) := preOrder_ends h []

/-! ### The loops -/

/-- What a walk visits that calls `todo` as `f` says when it comes to a node and as `g`
says when it comes back from the left. -/
def walkOrder (f g : ι → List ι) : BinaryTree ι → List ι
  | .nil => []
  | .node x l r => f x ++ (walkOrder f g l ++ (g x ++ walkOrder f g r))

lemma walkOrder_preorder (t : BinaryTree ι) :
    walkOrder (fun x => [x]) (fun _ => []) t = preorder t := by
  induction t with
  | nil => rfl
  | node x l r ihl ihr => simp [walkOrder, preorder, ihl, ihr]

lemma walkOrder_inorder (t : BinaryTree ι) :
    walkOrder (fun _ => []) (fun x => [x]) t = inorder t := by
  induction t with
  | nil => rfl
  | node x l r ihl ihr => simp [walkOrder, ihl, ihr]

section Loop

variable {body : Walk ι → Comp Fault (Walk ι ⊕ Walk ι)} {f g : ι → List ι}

/-- From a subtree on, the loop visits it and has then the stack it came with. -/
lemma walk_subtree
    (hpush : ∀ stack x visited, (body ⟨stack, some x, visited⟩).Ends
      (.ok (.inl ⟨some x :: stack, (s.node x).lchild, visited ++ f x⟩)))
    (hpop : ∀ stack x visited, (body ⟨some x :: stack, none, visited⟩).Ends
      (.ok (.inl ⟨stack, (s.node x).rchild, visited ++ g x⟩)))
    (h : Spans s q t) {stack : StackInfo (Option ι)} {visited : List ι}
    {r : Except Fault (Walk ι)}
    (hr : (Comp.loop body ⟨stack, none, visited ++ walkOrder f g t⟩).Ends r) :
    (Comp.loop body ⟨stack, q, visited⟩).Ends r := by
  induction t generalizing q stack visited with
  | nil =>
      obtain rfl : q = none := h
      simpa [walkOrder] using hr
  | node x l r' ihl ihr =>
      obtain ⟨rfl, hl, hrc⟩ := h
      refine (hpush stack x visited).loop_inl (ihl hl ?_)
      -- the left part is visited, and `x` is on top of the stack
      refine (hpop stack x _).loop_inl (ihr hrc ?_)
      simpa [walkOrder] using hr

/-- The whole loop. -/
lemma walk_ends
    (hpush : ∀ stack x visited, (body ⟨stack, some x, visited⟩).Ends
      (.ok (.inl ⟨some x :: stack, (s.node x).lchild, visited ++ f x⟩)))
    (hpop : ∀ stack x visited, (body ⟨some x :: stack, none, visited⟩).Ends
      (.ok (.inl ⟨stack, (s.node x).rchild, visited ++ g x⟩)))
    (hexit : ∀ visited, (body ⟨[], none, visited⟩).Ends (.ok (.inr ⟨[], none, visited⟩)))
    (h : Spans s q t) :
    (Comp.loop body ⟨[], q, []⟩ >>= fun w => pure (w.visited, w.stack)).Ends
      (.ok (walkOrder f g t, [])) :=
  (walk_subtree hpush hpop h (Comp.Ends.loop_inr (hexit _))).bind (by simp)

end Loop

lemma btreePreOrderNorecur_ends (h : Spans info.store info.store.root t) :
    (btreePreOrderNorecur info).Ends (.ok (preorder t, [])) := by
  rw [← walkOrder_preorder]
  refine walk_ends (fun stack x visited => ?_) (fun stack x visited => ?_) (fun visited => ?_) h
  · simp [btreePreOrderNorecurBody, stackPush]
  · simp [btreePreOrderNorecurBody, stackIsEmpty, stackPop, deref]
  · simp [btreePreOrderNorecurBody, stackIsEmpty]

lemma btreeInOrderNorecur_ends (h : Spans info.store info.store.root t) :
    (btreeInOrderNorecur info).Ends (.ok (inorder t, [])) := by
  rw [← walkOrder_inorder]
  refine walk_ends (fun stack x visited => ?_) (fun stack x visited => ?_) (fun visited => ?_) h
  · simp [btreeInOrderNorecurBody, stackPush]
  · simp [btreeInOrderNorecurBody, stackIsEmpty, stackPop, deref]
  · simp [btreeInOrderNorecurBody, stackIsEmpty]

/-- **The traversals without recursion.**  On a finite tree `btree_pre_order_norecur` and
`btree_in_order_norecur` return, they call `todo` on the nodes on which `btree_pre_order`
and `btree_in_order` call it, in the same order, and the stack is empty at the end. -/
theorem norecur_eq (info : BtreeInfo ι) (t : BinaryTree ι)
    (h : Spans info.store info.store.root t) :
    (∃ visited, (btreePreOrder info).Ends (.ok visited) ∧
      (btreePreOrderNorecur info).Ends (.ok (visited, []))) ∧
    ∃ visited, (btreeInOrder info).Ends (.ok visited) ∧
      (btreeInOrderNorecur info).Ends (.ok (visited, [])) :=
  ⟨⟨preorder t, btreePreOrder_ends h, btreePreOrderNorecur_ends h⟩,
    inorder t, btreeInOrder_ends h, btreeInOrderNorecur_ends h⟩

/-- A node with a left child that has only a right child, and a right child. -/
theorem norecur_eq_four :
    ∃ visited, (btreePreOrder ⟨⟨some 4, fun n => if n = 4 then ⟨none, some 2, some 5⟩ else
      if n = 2 then ⟨none, none, some 3⟩ else ⟨none, none, none⟩⟩, fun a b : ℕ => (a : ℤ) - b⟩).Ends
        (.ok visited) ∧
    (btreePreOrderNorecur ⟨⟨some 4, fun n => if n = 4 then ⟨none, some 2, some 5⟩ else
      if n = 2 then ⟨none, none, some 3⟩ else ⟨none, none, none⟩⟩, fun a b : ℕ => (a : ℤ) - b⟩).Ends
        (.ok (visited, [])) :=
  (norecur_eq _ (.node 4 (.node 2 .nil (.node 3 .nil .nil)) (.node 5 .nil .nil))
    (by simp [Spans])).1

end Btree

end DemoClass
