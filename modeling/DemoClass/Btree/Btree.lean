import DemoClass.Lib.Comp
import DemoClass.Lib.TreeStore

/-!
# Binary trees (`btree.c`)

`btree_push` and `btree_del` as they rewrite the links of the nodes.  Both walk
with a pointer: `btree_push` with `pparent`, the address of the link it is at, and
`btree_del` with `cur`, down to the leftmost node of the right subtree.  Following
a link that is `NULL` is a fault.
-/

namespace DemoClass

namespace Btree

open SearchTree TreeStore

inductive Fault
  | nullPointer
  deriving DecidableEq, Repr

/-- `struct btree_info`, its `root` together with the nodes of the program, and the
`cmp` it was given. -/
structure BtreeInfo (ι : Type) where
  store : TreeStore ι
  cmp : ι → ι → ℤ

variable {ι : Type}

/-- `btree_init` -/
def btreeInit (node : ι → TreeLinks ι) (cmp : ι → ι → ℤ) : BtreeInfo ι := ⟨⟨none, node⟩, cmp⟩

/-- The node a pointer points to. -/
def deref : Option ι → Comp Fault ι
  | none => .fault .nullPointer
  | some x => pure x

/-- One round of the loop of `btree_push`, on `pparent` and `cur`. -/
def btreePushBody (cmp : ι → ι → ℤ) (s : TreeStore ι) (node : ι) (w : TreeSlot ι × Option ι) :
    Comp Fault ((TreeSlot ι × Option ι) ⊕ (TreeSlot ι × Option ι)) :=
  match s.get w.1 with
  | none => pure (.inr w)
  | some cur => pure (.inl (if 0 ≤ cmp node cur then .rchild cur else .lchild cur, some cur))

/-- One round of the walk of `btree_del` to the heir, on `cur`. -/
def btreeDelBody (s : TreeStore ι) (cur : ι) : Comp Fault (ι ⊕ ι) :=
  match (s.node cur).lchild with
  | none => pure (.inr cur)
  | some y => pure (.inl y)

variable [DecidableEq ι]

/-- `bnode_init` -/
def bnodeInit (s : TreeStore ι) (node : ι) : TreeStore ι := s.setNode node ⟨none, none, none⟩

/-- `btree_push` -/
def btreePush (info : BtreeInfo ι) (node : ι) : Comp Fault (BtreeInfo ι) := do
  let s := bnodeInit info.store node
  match s.root with
  | none => pure { info with store := s.set .root (some node) }
  | some _ =>
    let w ← Comp.loop (btreePushBody info.cmp s node) (.root, none)
    pure { info with store := (s.set w.1 (some node)).setParent node w.2 }

/-- The address of the link to `node`, as `btree_del` finds it. -/
def btreeDelSlot (s : TreeStore ι) (node : ι) : TreeSlot ι :=
  match (s.node node).parent with
  | none => .root
  | some p => if (s.node p).lchild = some node then .lchild p else .rchild p

/-- `btree_del` of a node with two children: the heir `cur` is unlinked, gets the
links of `node` and takes its place. -/
def btreeDelBoth (s : TreeStore ι) (pparent : TreeSlot ι) (node rchild : ι) :
    Comp Fault (TreeStore ι) := do
  let cur ← Comp.loop (btreeDelBody s) rchild
  let p ← deref (s.node cur).parent
  let s := s.set (if p ≠ node then .lchild p else .rchild p) (s.node cur).rchild
  let s := s.reparent (s.node cur).rchild (s.node cur).parent
  let s := s.setNode cur (s.node node)
  let s := s.set pparent (some cur)
  let s := s.reparent (s.node cur).lchild (some cur)
  pure (s.reparent (s.node cur).rchild (some cur))

/-- `btree_del` -/
def btreeDel (info : BtreeInfo ι) (node : ι) : Comp Fault (BtreeInfo ι × ℤ) := do
  let s := info.store
  match s.root with
  | none => pure (info, -1)
  | some _ =>
    let pparent := btreeDelSlot s node
    let n := s.node node
    match n.lchild, n.rchild with
    | none, none =>
      let s := s.set pparent none
      pure ({ info with store := s.setParent node none }, 0)
    | some l, none =>
      let s := (s.setParent l n.parent).set pparent (some l)
      let s := (s.setParent node none).set (.lchild node) none
      pure ({ info with store := s }, 0)
    | none, some r =>
      let s := (s.setParent r n.parent).set pparent (some r)
      let s := (s.setParent node none).set (.rchild node) none
      pure ({ info with store := s }, 0)
    | some _, some r =>
      let s ← btreeDelBoth s pparent node r
      pure ({ info with store := s }, 0)

end Btree

end DemoClass
