import DemoClass.KernelList.ListHead
import DemoClass.Lib.Comp
import Mathlib.Algebra.Order.Ring.Nat

/-!
# The Huffman coder's tables (`huff.h`, `huff_init`)

`struct huff_info` holds the table of the 511 nodes of a code tree, of which the
first 256 are the leaves, one for each byte value.  Table indices, links, codes and
weights are machine integers; they are natural numbers here, and every operation of
the code that can leave its type is reduced modulo the size of the type where the
code performs it.  Every access to the table checks the index, and an index outside
the table is a fault.

The `list` members of the nodes and `head` form one link store.  The file pointers
are not part of the record: the functions take and return the streams.
-/

namespace DemoClass

namespace Huffman

/-- `LEAF_NUM` -/
def leafNum : ℕ := 256

/-- `ALL_NUM` -/
def allNum : ℕ := leafNum + (leafNum - 1)

/-- `UNUSED` -/
def unused : ℕ := allNum

/-- A `struct list_head *`: the address of `head` or of the `list` member of a table
entry. -/
inductive ListPtr
  | head
  | node (i : ℕ)
  deriving DecidableEq

/-- `struct huff_tree` -/
structure HuffTree where
  parent : ℕ
  lchild : ℕ
  rchild : ℕ

/-- `struct huff_node` without its `list` member. -/
structure HuffNode where
  tree : HuffTree
  weight : ℕ
  code : ℕ
  codeLen : ℕ

/-- `struct huff_info` -/
structure HuffInfo where
  table : ℕ → HuffNode
  list : Links ListPtr
  root : ℕ
  fileSize : ℕ

/-- What can go wrong at run time. -/
inductive Fault
  /-- an access to `table[i]` outside the table -/
  | tableIndex (i : ℕ)
  /-- `list_entry` of the list head, which is not embedded in a node -/
  | headEntry
  /-- a shift by at least the width of `int` -/
  | shift (n : ℕ)
  deriving DecidableEq

/-- The number of values of `size_t`. -/
def sizeMod : ℕ := 2 ^ 64

/-- The number of values of `uint16_t` and `unsigned short`. -/
def shortMod : ℕ := 2 ^ 16

/-- The number of values of `unsigned char`. -/
def charMod : ℕ := 2 ^ 8

namespace HuffInfo

/-- Read `info->table[i]`. -/
def entry (info : HuffInfo) (i : ℕ) : Comp Fault HuffNode :=
  if i < allNum then pure (info.table i) else Comp.fault (.tableIndex i)

/-- Change the entry `i`, without a check. -/
def write (info : HuffInfo) (i : ℕ) (f : HuffNode → HuffNode) : HuffInfo :=
  { info with table := Function.update info.table i (f (info.table i)) }

/-- Change `info->table[i]`. -/
def modify (info : HuffInfo) (i : ℕ) (f : HuffNode → HuffNode) : Comp Fault HuffInfo :=
  if i < allNum then pure (info.write i f) else Comp.fault (.tableIndex i)

variable {info : HuffInfo} {i : ℕ}

@[simp] lemma entry_of_lt (h : i < allNum) : info.entry i = pure (info.table i) := if_pos h

@[simp] lemma modify_of_lt (h : i < allNum) (f : HuffNode → HuffNode) :
    info.modify i f = pure (info.write i f) := if_pos h

lemma entry_of_le (h : allNum ≤ i) : info.entry i = Comp.fault (.tableIndex i) :=
  if_neg (by omega)

@[simp] lemma write_table (f : HuffNode → HuffNode) :
    (info.write i f).table = Function.update info.table i (f (info.table i)) := rfl

@[simp] lemma write_list (f : HuffNode → HuffNode) : (info.write i f).list = info.list := rfl

@[simp] lemma write_root (f : HuffNode → HuffNode) : (info.write i f).root = info.root := rfl

@[simp] lemma write_fileSize (f : HuffNode → HuffNode) :
    (info.write i f).fileSize = info.fileSize := rfl

lemma write_write (f g : HuffNode → HuffNode) :
    (info.write i f).write i g = info.write i fun n => g (f n) := by
  simp [write]

lemma write_congr {f g : HuffNode → HuffNode} (h : f (info.table i) = g (info.table i)) :
    info.write i f = info.write i g := by
  simp [write, h]

/-- Writing codes and weights keeps the links. -/
lemma tree_write {f : HuffNode → HuffNode} (hf : ∀ n, (f n).tree = n.tree) (y : ℕ) :
    ((info.write i f).table y).tree = (info.table y).tree := by
  by_cases hy : y = i
  · subst hy
    simp [hf]
  · simp [hy]

end HuffInfo

namespace HuffNode

def setParent (p : ℕ) (n : HuffNode) : HuffNode := { n with tree := { n.tree with parent := p } }

def setLchild (c : ℕ) (n : HuffNode) : HuffNode := { n with tree := { n.tree with lchild := c } }

def setRchild (c : ℕ) (n : HuffNode) : HuffNode := { n with tree := { n.tree with rchild := c } }

def setWeight (v : ℕ) (n : HuffNode) : HuffNode := { n with weight := v }

/-- The child on the side `b`, `false` for left and `true` for right. -/
def child (n : HuffNode) (b : Bool) : ℕ := bif b then n.tree.rchild else n.tree.lchild

/-- A node as `huff_init` leaves it. -/
def fresh : HuffNode := ⟨⟨unused, unused, unused⟩, 0, 0, 0⟩

@[simp] lemma child_true (n : HuffNode) : n.child true = n.tree.rchild := rfl

@[simp] lemma child_false (n : HuffNode) : n.child false = n.tree.lchild := rfl

end HuffNode

/-- `huff_init`.  Its loop assigns all entries of the table and all their list links. -/
def huffInit (info : HuffInfo) : HuffInfo where
  table i := if i < allNum then HuffNode.fresh else info.table i
  list :=
    { next := fun p =>
        match p with
        | .head => .head
        | .node i => if i < allNum then .node i else info.list.next (.node i)
      prev := fun p =>
        match p with
        | .head => .head
        | .node i => if i < allNum then .node i else info.list.prev (.node i) }
  root := unused
  fileSize := info.fileSize

lemma huffInit_table {info : HuffInfo} {i : ℕ} (h : i < allNum) :
    (huffInit info).table i = HuffNode.fresh := if_pos h

lemma ring_huffInit (info : HuffInfo) : (huffInit info).list.Ring .head [] :=
  ⟨by simp, by simp [Links.Adj, huffInit]⟩

end Huffman

end DemoClass
