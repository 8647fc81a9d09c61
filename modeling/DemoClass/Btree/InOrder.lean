import DemoClass.Btree.Runs
import DemoClass.Btree.Traverse

/-!
# The sequence `btree_in_order` visits

In a tree reached by pushes and deletions, a push puts the node into the sequence of
`btree_in_order` directly behind the nodes that do not compare greater, and a deletion
takes the node out of it; all other nodes keep their places (`inOrder_law`).  After
pushes alone the sequence is therefore the stable sort of the nodes in the order in
which they were pushed.
-/

namespace DemoClass

namespace Btree

open SearchTree TreeStore

variable {ι : Type} [DecidableEq ι] {info : BtreeInfo ι} {S : Finset ι} {t : BinaryTree ι} {x : ι}

omit [DecidableEq ι] in
lemma Holds.inOrder_ends (h : Holds info S t) : (btreeInOrder info).Ends (.ok (inorder t)) :=
  btreeInOrder_ends (spans_of_rep h.rep)

/-- A push, on the sequence. -/
lemma Holds.push_inOrder (hc : TotalPreorderOn info.cmp Set.univ) (h : Holds info S t)
    (hx : x ∉ S) : ∃ info' us ws, (btreePush info x).Ends (.ok info') ∧ inorder t = us ++ ws ∧
      (∀ u ∈ us, info.cmp u x ≤ 0) ∧ (∀ w ∈ ws, 0 < info.cmp w x) ∧
      (btreeInOrder info').Ends (.ok (us ++ x :: ws)) := by
  obtain ⟨info', hends, -, h'⟩ := h.runOp hc (show (Op.push x).Allowed S from hx)
  obtain ⟨us, ws, ht, hi, hus, hws⟩ := inorder_insert hc x h.ordered
  refine ⟨info', us, ws, hends, ht, hus, hws, ?_⟩
  rw [← hi]
  exact h'.inOrder_ends

/-- A deletion, on the sequence. -/
lemma Holds.del_inOrder (h : Holds info S t) (hx : x ∈ S) :
    ∃ info' us ws, (btreeDel info x).Ends (.ok (info', 0)) ∧ inorder t = us ++ x :: ws ∧
      (btreeInOrder info').Ends (.ok (us ++ ws)) := by
  have hmem : x ∈ inorder t := (h.mem_iff x).2 hx
  obtain ⟨info', hends, -, hrep⟩ := btreeDel_ends h.rep hmem
  obtain ⟨us, ws, ht⟩ := List.append_of_mem hmem
  refine ⟨info', us, ws, hends, ht, ?_⟩
  have hus : x ∉ us := by
    have hn := h.rep.nodup
    rw [ht] at hn
    exact fun hu => (List.nodup_middle.1 hn).notMem (List.mem_append_left _ hu)
  have hin : inorder (delete x t) = us ++ ws := by
    rw [inorder_delete h.rep.nodup, ht, List.erase_append_right _ hus, List.erase_cons_head]
  rw [← hin]
  exact btreeInOrder_ends (spans_of_rep hrep)

/-- The tree after pushes alone. -/
lemma foldl_push (cmp : ι → ι → ℤ) (xs : List ι) (t : BinaryTree ι) :
    (xs.map Op.push).foldl (Op.onTree cmp) t =
      xs.foldl (fun t x => SearchTree.insert cmp x t) t := by
  rw [List.foldl_map]
  rfl

/-- **The in-order sequence.**  After any run of pushes and deletions
`btree_in_order` returns; a push adds the node to what it visits directly behind the
nodes that do not compare greater, a deletion removes exactly the node, and after pushes
alone it visits the stable sort of the nodes pushed. -/
theorem inOrder_law (cmp : ι → ι → ℤ) (hc : TotalPreorderOn cmp Set.univ)
    (node : ι → TreeLinks ι) (ops : List (Op ι)) (hops : AllAllowed ∅ ops) :
    ∃ info visited, (run (btreeInit node cmp) ops).Ends (.ok info) ∧
      (btreeInOrder info).Ends (.ok visited) ∧
      (∀ x ∉ nodesOf ops, ∃ info' us ws, (btreePush info x).Ends (.ok info') ∧
        visited = us ++ ws ∧ (∀ u ∈ us, cmp u x ≤ 0) ∧ (∀ w ∈ ws, 0 < cmp w x) ∧
        (btreeInOrder info').Ends (.ok (us ++ x :: ws))) ∧
      (∀ x ∈ nodesOf ops, ∃ info' us ws, (btreeDel info x).Ends (.ok (info', 0)) ∧
        visited = us ++ x :: ws ∧ (btreeInOrder info').Ends (.ok (us ++ ws))) ∧
      ∀ xs, ops = xs.map .push → ListSort.IsStableSort cmp xs visited := by
  obtain ⟨info, hends, hcmp, h⟩ := (holds_btreeInit node cmp).run hc hops
  refine ⟨info, _, hends, h.inOrder_ends, fun x hx => ?_, fun x hx => h.del_inOrder hx, ?_⟩
  · obtain ⟨info', us, ws, hpush, hvisited, hus, hws, hends'⟩ := h.push_inOrder (hcmp ▸ hc) hx
    rw [hcmp] at hus hws
    exact ⟨info', us, ws, hpush, hvisited, hus, hws, hends'⟩
  · rintro xs rfl
    rw [show (btreeInit node cmp).cmp = cmp from rfl, foldl_push]
    exact (inorder_foldl_insert hc xs).2

/-- Nodes compared by their tens; `63` is pushed once more after it was deleted, and is
then behind `61`. -/
theorem inOrder_law_tens : ∃ info visited,
    (run (btreeInit (fun _ => ⟨none, none, none⟩)
        fun a b : ℕ => ((a / 10 : ℕ) : ℤ) - ((b / 10 : ℕ) : ℤ))
      [.push 50, .push 63, .push 61, .push 30, .del 63]).Ends (.ok info) ∧
    (btreeInOrder info).Ends (.ok visited) ∧ ∃ info' us ws,
      (btreePush info 63).Ends (.ok info') ∧ visited = us ++ ws ∧ 61 ∉ ws ∧
        (btreeInOrder info').Ends (.ok (us ++ 63 :: ws)) := by
  have hc : TotalPreorderOn (fun a b : ℕ => ((a / 10 : ℕ) : ℤ) - ((b / 10 : ℕ) : ℤ)) Set.univ :=
    ⟨fun a _ b _ => by omega, fun a _ b _ d _ => by omega⟩
  obtain ⟨info, visited, hends, hvisited, hpush, -, -⟩ := inOrder_law _ hc
    (fun _ => ⟨none, none, none⟩) [.push 50, .push 63, .push 61, .push 30, .del 63] (by decide)
  obtain ⟨info', us, ws, hp, hv, -, hws, hends'⟩ := hpush 63 (by decide)
  exact ⟨info, visited, hends, hvisited, info', us, ws, hp, hv,
    fun hmem => absurd (hws 61 hmem) (by decide), hends'⟩

end Btree

end DemoClass
