import DemoClass.Huffman.Info
import DemoClass.KernelList.SortList

/-!
# Building the code tree (`huff.c`)

Counting the bytes, building the sorted list of the used leaves and merging the two
lightest nodes until one is left.
-/

namespace DemoClass

namespace Huffman

open KernelList

/-- `hf_statistic_weight` -/
def hfStatisticWeight (info : HuffInfo) (file : List UInt8) : Comp Fault HuffInfo :=
  file.foldlM (fun info rbuf =>
    info.modify rbuf.toNat fun n => { n with weight := (n.weight + 1) % sizeMod }) info

/-- The difference of two weights as `list_node_cmp` returns it: computed in `size_t`
and converted to `int`, which keeps its lower 32 bits. -/
def weightDiff (a b : ℕ) : ℤ := (((a + (sizeMod - b % sizeMod)) % sizeMod : ℕ) : ℤ).bmod (2 ^ 32)

/-- The sum of two weights in `size_t`. -/
def weightSum (a b : ℕ) : ℕ := (a + b) % sizeMod

/-- `list_entry`, as the index of the entry. -/
def listEntry : ListPtr → Comp Fault ℕ
  | .head => Comp.fault .headEntry
  | .node i => pure i

/-- `list_node_cmp` -/
def listNodeCmp (info : HuffInfo) (a b : ListPtr) : Comp Fault ℤ := do
  let pa ← info.entry (← listEntry a)
  let pb ← info.entry (← listEntry b)
  pure (weightDiff pa.weight pb.weight)

/-- `hf_build_sort_list` -/
def hfBuildSortList (info : HuffInfo) : Comp Fault HuffInfo := do
  let info ← (List.range leafNum).foldlM (fun info i => do
    if (← info.entry i).weight ≠ 0 then
      pure { info with list := info.list.listAddTail .head (.node i) }
    else
      pure info) info
  let list ← insertSort (listNodeCmp info) .head info.list
  pure { info with list := list }

/-- One round of the loop of `list_add_with_sort`. -/
def listAddWithSortBody (info : HuffInfo) (node cur : ListPtr) :
    Comp Fault (ListPtr ⊕ ListPtr) :=
  if cur = .head then pure (.inr cur)
  else do
    if (← listNodeCmp info node cur) > 0 then
      pure (.inl (info.list.next cur))
    else
      pure (.inr cur)

/-- `list_add_with_sort` -/
def listAddWithSort (info : HuffInfo) (node : ListPtr) : Comp Fault HuffInfo := do
  let cur ← Comp.loop (listAddWithSortBody info node) (info.list.next .head)
  pure { info with list := info.list._listAdd node (info.list.prev cur) cur }

/-- The assignments with which `hf_build_hufftree` makes `pan` and `pbn` the children of
`index`. -/
def joinNodes (info : HuffInfo) (index pan pbn : ℕ) : Comp Fault HuffInfo := do
  let pa ← info.entry pan
  let pb ← info.entry pbn
  let info ← info.modify index (.setWeight (weightSum pa.weight pb.weight))
  let info ← info.modify index (.setLchild pan)
  let info ← info.modify index (.setRchild pbn)
  let info ← info.modify pan (.setParent index)
  info.modify pbn (.setParent index)

/-- One round of the loop of `hf_build_hufftree`, on the tables and `index`. -/
def hfBuildHufftreeBody (s : HuffInfo × ℕ) : Comp Fault ((HuffInfo × ℕ) ⊕ (HuffInfo × ℕ)) := do
  let (info, index) := s
  if info.list.next (info.list.next .head) = .head then
    return .inr s
  let a := info.list.next .head
  let b := info.list.next a
  let pan ← listEntry a
  let pbn ← listEntry b
  let info ← joinNodes info index pan pbn
  let info := { info with list := info.list.listDelInit a }
  let info := { info with list := info.list.listDelInit b }
  let info ← listAddWithSort info (.node index)
  return .inl (info, (index + 1) % shortMod)

/-- `hf_build_hufftree` -/
def hfBuildHufftree (info : HuffInfo) : Comp Fault HuffInfo := do
  let (info, index) ← Comp.loop hfBuildHufftreeBody (info, leafNum)
  if index ≠ 256 then
    pure { info with root := index - 1 }
  else
    pure { info with root := 256 }

/-- One round of the inner loop of `hf_fill_code`, on the tables and `cur`. -/
def hfFillCodeBody (i : ℕ) (s : HuffInfo × ℕ) : Comp Fault ((HuffInfo × ℕ) ⊕ HuffInfo) := do
  let (info, cur) := s
  if cur = info.root then
    return .inr info
  let info ← info.modify i fun n => { n with code := n.code * 2 % shortMod }
  let parent := (← info.entry cur).tree.parent
  let info ←
    if (← info.entry parent).tree.rchild = cur then
      info.modify i fun n => { n with code := n.code ||| 1 }
    else
      pure info
  let cur := (← info.entry cur).tree.parent
  let info ← info.modify i fun n => { n with codeLen := (n.codeLen + 1) % charMod }
  return .inl (info, cur)

/-- `hf_fill_code` -/
def hfFillCode (info : HuffInfo) : Comp Fault HuffInfo :=
  (List.range leafNum).foldlM (fun info i => do
    if (← info.entry i).weight = 0 then
      pure info
    else
      Comp.loop (hfFillCodeBody i) (info, i)) info

/-- `huff_prepare`; its four parts have no error exits of their own. -/
def huffPrepare (info : HuffInfo) (file : List UInt8) : Comp Fault HuffInfo := do
  let info ← hfStatisticWeight info file
  let info ← hfBuildSortList info
  let info ← hfBuildHufftree info
  hfFillCode info

end Huffman

end DemoClass
