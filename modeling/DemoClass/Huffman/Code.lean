import DemoClass.Huffman.WellFormed

/-!
# The code words of `hf_fill_code`

`hf_fill_code` walks from every used leaf to the root and shifts one bit for each edge
into the 16 bits of `code`, so that the edge at the root ends in the lowest bit
(`codeOf`).  `huff_compress` emits the bits of `code` from the lowest one, `emitted`,
which is the path from the root as long as the leaf is at most 16 edges below it.
-/

namespace DemoClass

namespace Huffman

/-- The path `bs` leads from the entry `n` of the table down to the entry `x`. -/
inductive Path (table : ℕ → HuffNode) : ℕ → List Bool → ℕ → Prop
  | refl (x : ℕ) : Path table x [] x
  | step {n x : ℕ} {b : Bool} {bs : List Bool} : leafNum ≤ n →
      Path table ((table n).child b) bs x → Path table n (b :: bs) x

/-- What `hf_fill_code` accumulates in `code` on the path `bs` from the root. -/
def codeOf : List Bool → ℕ
  | [] => 0
  | b :: bs => codeOf bs * 2 % shortMod ||| b.toNat

/-- The bits that `huff_compress` writes for a byte with the entry `node`. -/
def emitted (node : HuffNode) : List Bool :=
  (List.range node.codeLen).map fun i => node.code.testBit i

variable {w : ℕ → ℕ} {info : HuffInfo} {table : ℕ → HuffNode} {z : Weighted ℕ}

/-! ### Bits -/

/-- The first 16 bits of the path are in the code, and nothing else. -/
lemma testBit_codeOf (bs : List Bool) (j : ℕ) :
    (codeOf bs).testBit j = (decide (j < 16) && bs.getD j false) := by
  induction bs generalizing j with
  | nil => simp [codeOf]
  | cons b bs ih =>
      have hb : b.toNat.testBit j = (decide (j = 0) && b) := by
        cases b <;> cases j <;> simp [Nat.testBit_succ]
      rw [codeOf, Nat.testBit_or, shortMod, Nat.testBit_mod_two_pow, hb]
      cases j with
      | zero => simp
      | succ j =>
          rw [Nat.testBit_succ, Nat.mul_div_cancel _ (by decide), ih]
          by_cases hj : j + 1 < 16
          · have hj' : j < 16 := by omega
            simp [hj, hj']
          · simp [hj]

lemma emitted_codeOf {node : HuffNode} {bs : List Bool} (hlen : bs.length ≤ 16)
    (hcode : node.code = codeOf bs) (hcodeLen : node.codeLen = bs.length % charMod) :
    emitted node = bs := by
  have hmod : bs.length % charMod = bs.length :=
    Nat.mod_eq_of_lt (lt_of_le_of_lt hlen (by decide))
  refine List.ext_getElem (by simp [emitted, hcodeLen, hmod]) fun j hj hj' => ?_
  have hj16 : j < 16 := by omega
  simp [emitted, hcode, testBit_codeOf, hj16, hj']

/-- Bit 16 of a path is lost. -/
lemma emitted_ne {node : HuffNode} {bs : List Bool} (hturn : bs[16]? = some true)
    (hcode : node.code = codeOf bs) : emitted node ≠ bs := by
  intro he
  have hbit : (emitted node)[16]? = some true := he ▸ hturn
  obtain ⟨hlt, hget⟩ := List.getElem?_eq_some_iff.1 hbit
  simp [emitted, hcode, testBit_codeOf] at hget

/-! ### Paths -/

lemma Path.snoc_inv {n x : ℕ} {b : Bool} {bs : List Bool} (h : Path table n (bs ++ [b]) x) :
    ∃ p, Path table n bs p ∧ leafNum ≤ p ∧ (table p).child b = x := by
  induction bs generalizing n with
  | nil =>
      cases h with
      | step hn h =>
          cases h
          exact ⟨n, .refl n, hn, rfl⟩
  | cons c bs ih =>
      cases h with
      | step hn h =>
          obtain ⟨p, hp, hp', hb⟩ := ih h
          exact ⟨p, .step hn hp, hp', hb⟩

lemma Path.congr {table' : ℕ → HuffNode} (he : ∀ y, (table' y).tree = (table y).tree)
    {n x : ℕ} {bs : List Bool} (h : Path table n bs x) : Path table' n bs x := by
  induction h with
  | refl x => exact .refl x
  | @step n x b bs hn _ ih =>
      refine .step hn ?_
      have hc : (table' n).child b = (table n).child b := by simp [HuffNode.child, he n]
      rwa [hc]

/-- Paths in a tree of the table are the paths of the code tree. -/
lemma TreeAt.isPath_iff {t : CodeTree ℕ} {n x : ℕ} {bs : List Bool} (h : TreeAt table t n) :
    t.IsPath bs x ↔ Path table n bs x ∧ x < leafNum := by
  induction t generalizing n bs with
  | leaf a =>
      obtain ⟨rfl, hn⟩ := h
      rw [CodeTree.isPath_leaf]
      constructor
      · rintro ⟨rfl, rfl⟩
        exact ⟨.refl n, hn⟩
      · rintro ⟨hp, -⟩
        cases hp with
        | refl => exact ⟨rfl, rfl⟩
        | step hn' _ => omega
  | node l r ihl ihr =>
      obtain ⟨hn, -, -, hl, hr⟩ := h
      rw [CodeTree.isPath_node]
      constructor
      · rintro (⟨cs, rfl, hcs⟩ | ⟨cs, rfl, hcs⟩)
        · exact ⟨.step hn ((ihl hl).1 hcs).1, ((ihl hl).1 hcs).2⟩
        · exact ⟨.step hn ((ihr hr).1 hcs).1, ((ihr hr).1 hcs).2⟩
      · rintro ⟨hp, hx⟩
        cases hp with
        | refl => omega
        | @step _ _ b bs _ hp =>
            cases b with
            | false => exact Or.inl ⟨bs, rfl, (ihl hl).2 ⟨hp, hx⟩⟩
            | true => exact Or.inr ⟨bs, rfl, (ihr hr).2 ⟨hp, hx⟩⟩

/-! ### The walk to the root -/

/-- What the walk of `hf_fill_code` relies on. -/
structure Climbs (info : HuffInfo) : Prop where
  root_lt : info.root < allNum
  child_lt : ∀ n, leafNum ≤ n → n ≤ info.root → ∀ b, (info.table n).child b < n
  distinct : ∀ n, leafNum ≤ n → n ≤ info.root →
    (info.table n).tree.lchild ≠ (info.table n).tree.rchild
  parent : ∀ n, leafNum ≤ n → n ≤ info.root → ∀ b,
    (info.table ((info.table n).child b)).tree.parent = n

lemma Built.climbs (h : Built w info z) : Climbs info where
  root_lt := h.root_lt
  child_lt _ hn hn' b := ((h.inner hn hn').live b).lt hn
  distinct _ hn hn' := (h.inner hn hn').distinct
  parent _ hn hn' := (h.inner hn hn').parent

/-- Set the code and its length. -/
def HuffNode.setCode (c len : ℕ) (n : HuffNode) : HuffNode := { n with code := c, codeLen := len }

namespace Climbs

lemma congr {info' : HuffInfo} (h : Climbs info) (hroot : info'.root = info.root)
    (he : ∀ y, (info'.table y).tree = (info.table y).tree) : Climbs info' := by
  have hc : ∀ y b, (info'.table y).child b = (info.table y).child b := fun y b => by
    simp [HuffNode.child, he y]
  refine ⟨hroot ▸ h.root_lt, ?_, ?_, ?_⟩
  · intro n hn hn' b
    rw [hc]
    exact h.child_lt n hn (hroot ▸ hn') b
  · intro n hn hn'
    rw [he]
    exact h.distinct n hn (hroot ▸ hn')
  · intro n hn hn' b
    rw [hc, he]
    exact h.parent n hn (hroot ▸ hn') b

lemma path_le (h : Climbs info) {n x : ℕ} {bs : List Bool} (hp : Path info.table n bs x)
    (hn : n ≤ info.root) : x ≤ n := by
  induction hp with
  | refl x => exact le_rfl
  | @step n x b bs hn' hp ih =>
      have hlt := h.child_lt n hn' hn b
      exact (ih (by omega)).trans (by omega)

end Climbs

/-- Add the bit of one edge to the code. -/
lemma setCode_codeOf (info : HuffInfo) (i : ℕ) (b : Bool) {cs : List Bool}
    (hcode : (info.table i).code = codeOf cs)
    (hlen : (info.table i).codeLen = cs.length % charMod) :
    info.write i (fun n => { n with
      code := if b then n.code * 2 % shortMod ||| 1 else n.code * 2 % shortMod
      codeLen := (n.codeLen + 1) % charMod }) =
      info.write i (.setCode (codeOf (b :: cs)) ((b :: cs).length % charMod)) := by
  refine HuffInfo.write_congr ?_
  cases b <;> simp [HuffNode.setCode, hcode, hlen, codeOf]

/-- One edge of the walk to the root. -/
lemma hfFillCodeBody_ends (h : Climbs info) {i p : ℕ} {b : Bool} {cs : List Bool}
    (hi : i < leafNum) (hp : leafNum ≤ p) (hp' : p ≤ info.root)
    (hcode : (info.table i).code = codeOf cs)
    (hlen : (info.table i).codeLen = cs.length % charMod) :
    (hfFillCodeBody i (info, (info.table p).child b)).Ends (.ok (.inl
      (info.write i (.setCode (codeOf (b :: cs)) ((b :: cs).length % charMod)), p))) := by
  have hi' : i < allNum := hi.trans (by decide)
  have hpa : p < allNum := lt_of_le_of_lt hp' h.root_lt
  have hclt : (info.table p).child b < p := h.child_lt p hp hp' b
  have hca : (info.table p).child b < allNum := hclt.trans hpa
  have hne : (info.table p).child b ≠ info.root := by omega
  have hparent : (info.table ((info.table p).child b)).tree.parent = p := h.parent p hp hp' b
  have hside : (info.table p).tree.rchild = (info.table p).child b ↔ b = true := by
    cases b with
    | false => simpa using (h.distinct p hp hp').symm
    | true => simp
  have h₁ : ∀ y, ((info.write i fun n => { n with code := n.code * 2 % shortMod }).table y).tree =
      (info.table y).tree := HuffInfo.tree_write fun _ => rfl
  have h₂ : ∀ y, ((info.write i fun n =>
      { n with code := n.code * 2 % shortMod ||| 1 }).table y).tree =
      (info.table y).tree := HuffInfo.tree_write fun _ => rfl
  rw [← setCode_codeOf info i b hcode hlen]
  generalize (info.table p).child b = x at hca hne hparent hside
  cases b with
  | false =>
      simp [-HuffInfo.write_table, hfFillCodeBody, hne, hi', hca, hpa, h₁, hparent, hside,
        HuffInfo.write_write]
  | true =>
      simp [-HuffInfo.write_table, hfFillCodeBody, hne, hi', hca, hpa, h₁, h₂, hparent, hside,
        HuffInfo.write_write]

/-- The walk from an entry on the path `bs` from the root puts the bits of `bs` before those
already in the code. -/
lemma hfFillCodeLoop_ends {i : ℕ} (hi : i < leafNum) {bs : List Bool} :
    ∀ {info : HuffInfo} {cs : List Bool} {cur : ℕ}, Climbs info →
      Path info.table info.root bs cur → (info.table i).code = codeOf cs →
      (info.table i).codeLen = cs.length % charMod →
      (Comp.loop (hfFillCodeBody i) (info, cur)).Ends (.ok (info.write i
        (.setCode (codeOf (bs ++ cs)) ((bs ++ cs).length % charMod)))) := by
  induction bs using List.reverseRecOn with
  | nil =>
      intro info cs cur _ hp hcode hlen
      cases hp
      have hsame : info.write i (.setCode (codeOf cs) (cs.length % charMod)) = info := by
        rw [← hcode, ← hlen]
        exact congrArg (fun f => { info with table := f }) (Function.update_eq_self i _)
      rw [List.nil_append, hsame]
      exact Comp.Ends.loop_inr (by simp [hfFillCodeBody])
  | append_singleton bs b ih =>
      intro info cs cur h hp hcode hlen
      obtain ⟨p, hpath, hleaf, rfl⟩ := hp.snoc_inv
      have hbody := hfFillCodeBody_ends h hi hleaf (h.path_le hpath le_rfl) hcode hlen
        (b := b)
      have htree : ∀ y, ((info.write i (.setCode (codeOf (b :: cs))
          ((b :: cs).length % charMod))).table y).tree = (info.table y).tree :=
        HuffInfo.tree_write fun _ => rfl
      have hclimbs : Climbs (info.write i (.setCode (codeOf (b :: cs))
          ((b :: cs).length % charMod))) := h.congr rfl htree
      have hcode' : ((info.write i (.setCode (codeOf (b :: cs))
          ((b :: cs).length % charMod))).table i).code = codeOf (b :: cs) := by
        simp [HuffNode.setCode]
      have hih := ih hclimbs (hpath.congr htree) hcode' (by simp [HuffNode.setCode])
      rw [HuffInfo.write_write] at hih
      rw [List.append_assoc, List.singleton_append]
      exact hbody.loop_inl hih

/-- The tables with the code words of `t` filled in for the used ones of the first `n`
bytes. -/
def coded (t : CodeTree ℕ) (n : ℕ) (info : HuffInfo) : HuffInfo :=
  { info with
    table := fun i =>
      if i < n ∧ (info.table i).weight ≠ 0 then
        (info.table i).setCode (codeOf (t.codeword i)) ((t.codeword i).length % charMod)
      else info.table i }

lemma tree_coded (t : CodeTree ℕ) (n : ℕ) (info : HuffInfo) (y : ℕ) :
    ((coded t n info).table y).tree = (info.table y).tree := by
  by_cases hy : y < n ∧ (info.table y).weight ≠ 0
  · simp [coded, hy, HuffNode.setCode]
  · simp [coded, hy]

lemma weight_coded (t : CodeTree ℕ) (n : ℕ) (info : HuffInfo) (y : ℕ) :
    ((coded t n info).table y).weight = (info.table y).weight := by
  by_cases hy : y < n ∧ (info.table y).weight ≠ 0
  · simp [coded, hy, HuffNode.setCode]
  · simp [coded, hy]

lemma coded_table_self (t : CodeTree ℕ) (n : ℕ) (info : HuffInfo) :
    (coded t n info).table n = info.table n := if_neg (by omega)

lemma coded_zero (t : CodeTree ℕ) (info : HuffInfo) : coded t 0 info = info := by
  simp [coded]

lemma coded_succ_of_zero {t : CodeTree ℕ} {n : ℕ} (h : (info.table n).weight = 0) :
    coded t (n + 1) info = coded t n info := by
  refine congrArg (fun f => { info with table := f }) ?_
  ext y : 1
  have hy : (y < n + 1 ∧ (info.table y).weight ≠ 0) ↔ (y < n ∧ (info.table y).weight ≠ 0) := by
    constructor
    · rintro ⟨hlt, hw⟩
      have hne : y ≠ n := fun he => hw (he ▸ h)
      exact ⟨by omega, hw⟩
    · rintro ⟨hlt, hw⟩
      exact ⟨by omega, hw⟩
  simp only [hy]

lemma coded_succ {t : CodeTree ℕ} {n : ℕ} (h : (info.table n).weight ≠ 0) :
    coded t (n + 1) info = (coded t n info).write n
      (.setCode (codeOf (t.codeword n)) ((t.codeword n).length % charMod)) := by
  refine congrArg (fun f => { info with table := f }) ?_
  ext y : 1
  by_cases hy : y = n
  · subst hy
    simp [coded, h]
  · have hlt : y < n + 1 ↔ y < n := by omega
    simp [hlt, hy, coded]

/-- `hf_fill_code` fills in the code words of the tree. -/
lemma hfFillCode_ends (h : Climbs info)
    (hpath : ∀ i < leafNum, (info.table i).weight ≠ 0 →
      Path info.table info.root (z.tree.codeword i) i)
    (hno : ∀ i < allNum, (info.table i).code = 0 ∧ (info.table i).codeLen = 0) :
    (hfFillCode info).Ends (.ok (coded z.tree leafNum info)) := by
  have key : ∀ n ≤ leafNum, ((List.range n).foldlM (fun (info : HuffInfo) i => do
      if (← info.entry i).weight = 0 then
        pure info
      else
        Comp.loop (hfFillCodeBody i) (info, i)) info).Ends (.ok (coded z.tree n info)) := by
    intro n
    induction n with
    | zero =>
        intro _
        simp [coded_zero]
    | succ n ih =>
        intro hn
        have hn' : n < allNum := lt_of_lt_of_le (Nat.lt_of_succ_le hn) (by decide)
        rw [List.range_succ, List.foldlM_append]
        refine Comp.Ends.bind (ih (Nat.le_of_succ_le hn)) ?_
        by_cases hw : (info.table n).weight = 0
        · simp [hn', coded_table_self, hw, coded_succ_of_zero hw]
        · have htree := tree_coded z.tree n info
          have hclimbs : Climbs (coded z.tree n info) := h.congr rfl htree
          have hp : Path (coded z.tree n info).table (coded z.tree n info).root
              (z.tree.codeword n) n := (hpath n (Nat.lt_of_succ_le hn) hw).congr htree
          have hcode : ((coded z.tree n info).table n).code = codeOf [] := by
            rw [coded_table_self]
            exact (hno n hn').1
          have hlen : ((coded z.tree n info).table n).codeLen =
              ([] : List Bool).length % charMod := by
            rw [coded_table_self]
            exact (hno n hn').2
          have hloop := hfFillCodeLoop_ends (Nat.lt_of_succ_le hn) hclimbs hp hcode hlen
          rw [List.append_nil, ← coded_succ hw] at hloop
          simpa [hn', coded_table_self, hw] using hloop
  exact key leafNum le_rfl

end Huffman

end DemoClass
