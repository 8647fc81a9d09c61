import DemoClass.Btree.Find
import DemoClass.Lib.TreeShape
import Mathlib.Algebra.Order.Ring.Nat
import Mathlib.Data.Finset.Card

/-!
# The depth of a binary tree (`btree_get_depth`)

`btree_get_depth` counts with `size_t`.  As long as the nodes can be counted with it, it returns
the height of the tree in the store (`getDepth_ends`), and so can be compared from one call to the
next: no call changes it by more than one, and it bounds the walk of `btree_find`
(`depth_follows`).
-/

namespace DemoClass

namespace Btree

open SearchTree TreeStore

variable {ι : Type}

/-- The body of `__get_depth`, on `bnode`. -/
def _getDepthBody (s : TreeStore ι) : Comp.RecBody Fault (Option ι) ℕ where
  body call bnode :=
    match bnode with
    | none => pure 0
    | some bnode => do
      let ldepth ← call (s.node bnode).lchild
      let rdepth ← call (s.node bnode).rchild
      if rdepth < ldepth then pure ((ldepth + 1) % 2 ^ 64) else pure ((rdepth + 1) % 2 ^ 64)
  le := by
    rintro f g n h (_ | bnode)
    · exact Comp.LeUpTo.refl n _
    · exact (h _).bind fun _ => (h _).bind fun _ => Comp.LeUpTo.refl n _

/-- `__get_depth` -/
def _getDepth (s : TreeStore ι) (bnode : Option ι) : Comp Fault ℕ :=
  Comp.recur (_getDepthBody s) bnode

/-- `btree_get_depth` -/
def btreeGetDepth (info : BtreeInfo ι) : Comp Fault ℕ := _getDepth info.store info.store.root

variable {s : TreeStore ι} {info : BtreeInfo ι} {cmp : ι → ι → ℤ} {t : BinaryTree ι}
  {q : Option ι}

lemma getDepth_ends (h : Spans s q t) (hlt : t.height < 2 ^ 64) :
    (_getDepth s q).Ends (.ok t.height) := by
  induction t generalizing q with
  | nil =>
      obtain rfl : q = none := h
      exact Comp.Ends.recur (by simp [_getDepthBody])
  | node x l r ihl ihr =>
      obtain ⟨rfl, hl, hr⟩ := h
      rw [height_node] at hlt
      have hleft := ihl hl (by omega)
      have hright := ihr hr (by omega)
      refine Comp.Ends.recur (hleft.bind (hright.bind ?_))
      by_cases hdepth : r.height < l.height
      · rw [if_pos hdepth, Nat.mod_eq_of_lt (by omega), height_node, max_eq_left hdepth.le]
        exact Comp.ends_pure.2 rfl
      · rw [if_neg hdepth, Nat.mod_eq_of_lt (by omega), height_node,
          max_eq_right (not_lt.1 hdepth)]
        exact Comp.ends_pure.2 rfl

/-- The walk of `btree_find` goes down one level in each round. -/
lemma find_run (key : ι) (h : Spans s q t) :
    ∃ found, (Comp.loop (btreeFindBody cmp s key) q).run (t.height + 1) = some (.ok found) := by
  induction t generalizing q with
  | nil =>
      obtain rfl : q = none := h
      exact ⟨none, rfl⟩
  | node x l r ihl ihr =>
      obtain ⟨rfl, hl, hr⟩ := h
      -- a round at `x` that goes on at `p`, and the walk from there
      have hround : ∀ {p : Option ι} {n : ℕ}, n ≤ max l.height r.height →
          btreeFindBody cmp s key (some x) = pure (.inl p) →
          (∃ found, (Comp.loop (btreeFindBody cmp s key) p).run (n + 1) = some (.ok found)) →
          ∃ found, (Comp.loop (btreeFindBody cmp s key) (some x)).run
            ((BinaryTree.node x l r).height + 1) = some (.ok found) := by
        rintro p n hn hbody ⟨found, hfound⟩
        refine ⟨found, ?_⟩
        have hmono := (Comp.loop (btreeFindBody cmp s key) p).mono (Nat.succ_le_succ hn) hfound
        rw [height_node]
        show Comp.loopRun _ _ _ = _
        rw [Comp.loopRun, hbody]
        exact hmono
      by_cases heq : cmp key x = 0
      · refine ⟨some x, ?_⟩
        show Comp.loopRun _ _ _ = _
        rw [Comp.loopRun, btreeFindBody, if_pos heq]
        rfl
      · by_cases hlt : cmp key x < 0
        · refine hround (le_max_left _ _) ?_ (ihl hl)
          simp [btreeFindBody, heq, hlt]
        · refine hround (le_max_right _ _) ?_ (ihr hr)
          simp [btreeFindBody, heq, hlt]

variable [DecidableEq ι]

/-- What a call may make of the depth. -/
def Op.Moves (d d' : ℕ) : Op ι → Prop
  | .push _ => d ≤ d' ∧ d' ≤ d + 1
  | .del _ => d' ≤ d ∧ d ≤ d' + 1

lemma Op.moves_height (op : Op ι) (hn : (inorder t).Nodup) :
    op.Moves t.height (op.onTree cmp t).height := by
  cases op with
  | push x => exact height_insert cmp x t
  | del x => exact height_delete hn x

lemma card_eq_numNodes {S : Finset ι} (hn : (inorder t).Nodup)
    (hS : ∀ x, x ∈ inorder t ↔ x ∈ S) : S.card = t.numNodes := by
  have heq : S = (inorder t).toFinset := by
    ext x
    rw [List.mem_toFinset, hS]
  rw [heq, List.toFinset_card_of_nodup hn, length_inorder]

/-- **The depth of a tree.**  After any run of pushes and deletions, whatever the comparison is,
`btree_get_depth` returns a depth `d` that lies between the logarithm of the number of nodes and
that number.  The next push leaves it or makes it larger by one, the next deletion leaves it or
makes it smaller by one; and `btree_find` has its result, for every key, within `d + 1` rounds of
its loop. -/
theorem depth_follows (cmp : ι → ι → ℤ) (node : ι → TreeLinks ι) (ops : List (Op ι)) (op : Op ι)
    (hops : AllAllowed ∅ ops) (hop : op.Allowed (nodesOf ops))
    (hfew : (nodesOf ops).card + 1 < 2 ^ 64) :
    ∃ info info' d d', (run (btreeInit node cmp) ops).Ends (.ok info) ∧
      (op.run info).Ends (.ok info') ∧ (btreeGetDepth info).Ends (.ok d) ∧
      (btreeGetDepth info').Ends (.ok d') ∧ (nodesOf ops).card < 2 ^ d ∧
      d ≤ (nodesOf ops).card ∧ op.Moves d d' ∧
      ∀ key, ∃ found, (btreeFind info key).run (d + 1) = some (.ok found) := by
  obtain ⟨info, t, hrun, hrep, hmem⟩ := run_btreeInit node cmp hops
  obtain ⟨info', hcall, -, hrep', -⟩ := runOp_rep hrep hmem hop
  have hcard : (nodesOf ops).card = t.numNodes := card_eq_numNodes hrep.nodup hmem
  have hle := t.height_le_numNodes
  have hmoves : op.Moves t.height (op.onTree info.cmp t).height := op.moves_height hrep.nodup
  have hle' : (op.onTree info.cmp t).height ≤ t.height + 1 := by
    cases op with
    | push x => exact hmoves.2
    | del x => exact hmoves.1.trans (Nat.le_succ _)
  refine ⟨info, info', t.height, (op.onTree info.cmp t).height, hrun, hcall,
    getDepth_ends (spans_of_rep hrep) (by omega), getDepth_ends (spans_of_rep hrep') (by omega),
    ?_, ?_, hmoves, fun key => find_run key (spans_of_rep hrep)⟩
  · rw [hcard]
    exact numNodes_lt t
  · rwa [hcard]

/-- The deletion of the root of a chain of three. -/
theorem depth_follows_chain : ∃ info info' d d',
    (run (btreeInit (fun _ => ⟨none, none, none⟩) fun a b : ℕ => (a : ℤ) - b)
      [.push 1, .push 2, .push 3]).Ends (.ok info) ∧ (btreeGetDepth info).Ends (.ok d) ∧
    ((Op.del 1).run info).Ends (.ok info') ∧ (btreeGetDepth info').Ends (.ok d') ∧
      d' ≤ d ∧ d ≤ d' + 1 := by
  obtain ⟨info, info', d, d', hrun, hcall, hd, hd', -, -, hmoves, -⟩ :=
    depth_follows (fun a b : ℕ => (a : ℤ) - b) (fun _ => ⟨none, none, none⟩)
      [.push 1, .push 2, .push 3] (.del 1) (by decide) (by decide) (by decide)
  exact ⟨info, info', d, d', hrun, hd, hcall, hd', hmoves⟩

end Btree

end DemoClass
