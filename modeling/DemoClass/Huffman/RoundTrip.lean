import DemoClass.Huffman.CodeWords
import DemoClass.Huffman.ReadBack

/-!
# Compressing and decompressing a file

`roundTrips_iff` says which files `huff_decompress` gives back: the empty one, and
those with at least two different bytes whose code words fit into `code`.  With one
byte value only, `hf_fill_code` looks for the parent of a leaf that has none.
-/

namespace DemoClass

namespace Huffman

/-- A file, as long as `ftell` can tell. -/
structure File where
  bytes : List UInt8
  length_lt : bytes.length < 2 ^ 63

variable {w : ℕ → ℕ} {info : HuffInfo} {z : Weighted ℕ} {file : List UInt8}

/-! ### Preparing the tables -/

lemma setWeights_start (info : HuffInfo) :
    setWeights (byteCount []) (huffInit info) = huffInit info := by
  have htable : ∀ i, (setWeights (byteCount []) (huffInit info)).table i =
      (huffInit info).table i := by
    intro i
    by_cases hi : i < leafNum
    · have hall : i < allNum := hi.trans (by decide)
      rw [setWeights_table_of_lt hi, huffInit_table hall]
      rfl
    · exact setWeights_table_of_le (not_lt.1 hi)
  exact congrArg (fun f => { huffInit info with table := f }) (funext htable)

lemma hfStatisticWeight_start (info : HuffInfo) (hlen : file.length < sizeMod) :
    hfStatisticWeight (huffInit info) file =
      pure (setWeights (byteCount file) (huffInit info)) := by
  have h := hfStatisticWeight_eq (huffInit info) file [] hlen
  rwa [setWeights_start] at h

lemma byteCount_ne_zero {i : ℕ} : byteCount file i ≠ 0 ↔ i ∈ file.map UInt8.toNat := by
  rw [byteCount, ← Nat.pos_iff_ne_zero, List.countP_pos_iff]
  simp

/-- The used leaves are the bytes of the file. -/
lemma mem_usedLeaves_byteCount {i : ℕ} :
    i ∈ usedLeaves (byteCount file) ↔ i ∈ file.map UInt8.toNat := by
  rw [mem_usedLeaves, byteCount_ne_zero]
  refine and_iff_right_of_imp fun hi => ?_
  obtain ⟨b, -, rfl⟩ := List.mem_map.1 hi
  exact b.toNat_lt

/-- With two different bytes the tables are prepared. -/
lemma huffPrepare_ends (info : HuffInfo) (hlen : file.length < sizeMod)
    (h2 : 2 ≤ (usedLeaves (byteCount file)).length) :
    ∃ info₂ z, Built (byteCount file) info₂ z ∧
      (huffPrepare (huffInit info) file).Ends (.ok (coded z.tree leafNum info₂)) := by
  obtain ⟨info₁, info₂, z, hsort, hbuild, hbuilt, hfill⟩ := tables_ends (byteCount file) info h2
  refine ⟨info₂, z, hbuilt, ?_⟩
  rw [huffPrepare, hfStatisticWeight_start info hlen, pure_bind]
  exact hsort.bind (hbuild.bind hfill)

/-! ### Files with at most one byte value -/

/-- Unused bytes are skipped. -/
lemma foldlM_fillCode_of_zero (info : HuffInfo) (ys : List ℕ)
    (h : ∀ y ∈ ys, y < allNum ∧ (info.table y).weight = 0) :
    (ys.foldlM (fun (info : HuffInfo) i => do
      if (← info.entry i).weight = 0 then
        pure info
      else
        Comp.loop (hfFillCodeBody i) (info, i)) info) = pure info := by
  induction ys with
  | nil => rfl
  | cons y ys ih =>
      have hy := h y (by simp)
      rw [List.foldlM_cons, HuffInfo.entry_of_lt hy.1, pure_bind, if_pos hy.2, pure_bind]
      exact ih fun y' hy' => h y' (by simp [hy'])

/-- A leaf without a parent makes `hf_fill_code` leave the table. -/
lemma hfFillCode_fault {a : ℕ} (ha : a < leafNum) (hw : (info.table a).weight ≠ 0)
    (hzero : ∀ i < a, (info.table i).weight = 0) (hroot : info.root = 256)
    (hparent : (info.table a).tree.parent = unused) :
    (hfFillCode info).Ends (.error (.tableIndex unused)) := by
  have ha' : a < allNum := ha.trans (by decide)
  have hne : a ≠ info.root := by
    rw [hroot]
    exact ha.ne
  have hbody : (hfFillCodeBody a (info, a)).Ends (.error (.tableIndex unused)) := by
    have htree : ∀ y, ((info.write a fun n =>
        { n with code := n.code * 2 % shortMod }).table y).tree = (info.table y).tree :=
      HuffInfo.tree_write fun _ => rfl
    -- the parent of a leaf that was never linked is the index behind the table
    have hout : ∀ info : HuffInfo, info.entry unused = Comp.fault (.tableIndex unused) :=
      fun info => HuffInfo.entry_of_le le_rfl
    simp [-HuffInfo.write_table, hfFillCodeBody, hne, ha', htree, hparent, hout]
  have hskip := foldlM_fillCode_of_zero info (List.range a) fun i hi =>
    ⟨(List.mem_range.1 hi).trans ha', hzero i (List.mem_range.1 hi)⟩
  rw [hfFillCode, range_eq_append_cons ha, List.foldlM_append, hskip, pure_bind, List.foldlM_cons,
    HuffInfo.entry_of_lt ha', pure_bind, if_neg hw]
  exact Comp.Ends.bind_fault (Comp.Ends.loop_fault hbody)

/-- With at most one node in the list the loop makes no round. -/
lemma hfBuildHufftree_small {zs : List (ℕ × Weighted ℕ)} (h : Building w info leafNum zs)
    (hlen : zs.length ≤ 1) : (hfBuildHufftree info).Ends (.ok { info with root := 256 }) := by
  refine Comp.Ends.bind (Comp.Ends.loop_inr (h.body_stop hlen)) ?_
  simp [leafNum]

lemma huffPrepare_small (info : HuffInfo) (hlen : file.length < sizeMod)
    (h1 : (usedLeaves (byteCount file)).length ≤ 1) :
    ∃ l, ∀ r, (huffPrepare (huffInit info) file).Ends r ↔
      (hfFillCode { setWeights (byteCount file) (huffInit info) with
        list := l, root := 256 }).Ends r := by
  obtain ⟨l, hsort, hb⟩ := building_leafForest (byteCount file) info
  have hbuild := hfBuildHufftree_small hb (by rw [length_leafForest]; exact h1)
  refine ⟨l, fun r => ?_⟩
  rw [huffPrepare, hfStatisticWeight_start info hlen, pure_bind, hsort.bind_iff,
    hbuild.bind_iff]

/-- The empty file has no code words. -/
lemma huffPrepare_nil (info : HuffInfo) :
    ∃ info', (huffPrepare (huffInit info) []).Ends (.ok info') ∧ info'.root = 256 := by
  have hused : usedLeaves (byteCount []) = [] :=
    List.eq_nil_iff_forall_not_mem.2 fun i hi => by simpa using mem_usedLeaves_byteCount.1 hi
  have hlen : ([] : List UInt8).length < sizeMod := Nat.two_pow_pos 64
  obtain ⟨l, hl⟩ := huffPrepare_small info hlen (by simp [hused])
  have hzero : ∀ y ∈ List.range leafNum, y < allNum ∧
      (({ setWeights (byteCount []) (huffInit info) with list := l, root := 256 } :
        HuffInfo).table y).weight = 0 := by
    intro y hy
    have hy' := List.mem_range.1 hy
    refine ⟨hy'.trans (by decide), ?_⟩
    show ((setWeights (byteCount []) (huffInit info)).table y).weight = 0
    rw [setWeights_table_of_lt hy']
    rfl
  refine ⟨{ setWeights (byteCount []) (huffInit info) with list := l, root := 256 },
    (hl _).2 ?_, rfl⟩
  rw [hfFillCode, foldlM_fillCode_of_zero _ _ hzero]
  exact Comp.ends_pure.2 rfl

/-- With one byte value the preparation faults. -/
lemma huffPrepare_single (info : HuffInfo) (hlen : file.length < sizeMod)
    (h1 : (usedLeaves (byteCount file)).length = 1) :
    (huffPrepare (huffInit info) file).Ends (.error (.tableIndex unused)) := by
  obtain ⟨a, ha⟩ := List.length_eq_one_iff.1 h1
  obtain ⟨l, hl⟩ := huffPrepare_small info hlen h1.le
  have hmem : ∀ i, i < leafNum ∧ byteCount file i ≠ 0 ↔ i = a := fun i => by
    rw [← mem_usedLeaves, ha, List.mem_singleton]
  obtain ⟨hlt, hw⟩ := (hmem a).2 rfl
  refine (hl _).2 (hfFillCode_fault hlt ?_ ?_ rfl ?_)
  · show ((setWeights (byteCount file) (huffInit info)).table a).weight ≠ 0
    rwa [setWeights_table_of_lt hlt]
  · intro i hi
    show ((setWeights (byteCount file) (huffInit info)).table i).weight = 0
    rw [setWeights_table_of_lt (hi.trans hlt)]
    by_contra hwi
    exact hi.ne ((hmem i).1 ⟨hi.trans hlt, hwi⟩)
  · show ((setWeights (byteCount file) (huffInit info)).table a).tree.parent = unused
    rw [setWeights_table_of_lt hlt, huffInit_table (hlt.trans (by decide))]
    rfl

/-- Two bytes are used when the file holds two different ones. -/
lemma two_le_usedLeaves_iff :
    2 ≤ (usedLeaves (byteCount file)).length ↔ ∃ a ∈ file, ∃ b ∈ file, a ≠ b := by
  have hmem : ∀ b : UInt8, b ∈ file → b.toNat ∈ usedLeaves (byteCount file) := fun b hb =>
    mem_usedLeaves_byteCount.2 (List.mem_map_of_mem hb)
  constructor
  · intro h2
    match hu : usedLeaves (byteCount file), h2 with
    | i :: j :: us, _ =>
        have hne : i ≠ j := by
          have hnd := nodup_usedLeaves (byteCount file)
          rw [hu] at hnd
          exact fun he => (List.nodup_cons.1 hnd).1 (by simp [he])
        obtain ⟨a, ha, rfl⟩ := List.mem_map.1 (mem_usedLeaves_byteCount.1
          (show i ∈ usedLeaves (byteCount file) by rw [hu]; simp))
        obtain ⟨b, hb, rfl⟩ := List.mem_map.1 (mem_usedLeaves_byteCount.1
          (show j ∈ usedLeaves (byteCount file) by rw [hu]; simp))
        exact ⟨a, ha, b, hb, fun he => hne (by rw [he])⟩
  · rintro ⟨a, ha, b, hb, hab⟩
    by_contra hlt
    match hu : usedLeaves (byteCount file) with
    | [] => simpa [hu] using hmem a ha
    | [i] =>
        have hai : a.toNat = i := by simpa [hu] using hmem a ha
        have hbi : b.toNat = i := by simpa [hu] using hmem b hb
        exact hab (UInt8.toNat_inj.1 (hai.trans hbi.symm))
    | i :: j :: us => simp [hu] at hlt

/-- **Which files `huff_prepare` can prepare.**  It ends with every index that it uses
below `ALL_NUM` exactly when the file is empty or has two different bytes. -/
theorem huffPrepare_ends_iff (info : HuffInfo) (file : File) :
    (∃ info', (huffPrepare (huffInit info) file.bytes).Ends (.ok info')) ↔
      file.bytes = [] ∨ ∃ a ∈ file.bytes, ∃ b ∈ file.bytes, a ≠ b := by
  have hlen : file.bytes.length < sizeMod :=
    file.length_lt.trans (Nat.pow_lt_pow_right (by norm_num) (by norm_num))
  rw [← two_le_usedLeaves_iff]
  by_cases hnil : file.bytes = []
  · obtain ⟨info', hends, -⟩ := huffPrepare_nil info
    exact iff_of_true ⟨info', hnil ▸ hends⟩ (Or.inl hnil)
  · rw [or_iff_right hnil]
    constructor
    · rintro ⟨info', hends⟩
      by_contra hlt
      obtain ⟨b, hb⟩ := List.exists_mem_of_ne_nil _ hnil
      have hpos : 0 < (usedLeaves (byteCount file.bytes)).length :=
        List.length_pos_of_mem (mem_usedLeaves_byteCount.2 (List.mem_map_of_mem hb))
      have hfault := huffPrepare_single info hlen (by omega)
      exact absurd (hends.unique hfault) (by simp)
    · intro h2
      obtain ⟨info₂, z, -, hends⟩ := huffPrepare_ends info hlen h2
      exact ⟨_, hends⟩

/-- A file of one byte makes `hf_fill_code` read the entry 511. -/
theorem huffPrepare_one_byte : ¬ ∃ info',
    (huffPrepare (huffInit ⟨fun _ => .fresh, ⟨id, id⟩, 0, 0⟩) [97]).Ends (.ok info') := by
  rintro ⟨info', hends⟩
  have hlen : [(97 : UInt8)].length < sizeMod := by norm_num [sizeMod]
  have hfault := huffPrepare_single ⟨fun _ => .fresh, ⟨id, id⟩, 0, 0⟩ hlen (by decide +kernel)
  exact absurd (hends.unique hfault) (by simp)

/-! ### Round trips -/

/-- Compressing a file and decompressing the archive returns 0 twice and gives back the
bytes of the file. -/
def RoundTrips (mem mem' : ℕ → ℕ → UInt8) (junk : List UInt8) (info info' : HuffInfo)
    (file : List UInt8) : Prop :=
  ∃ dst, (huffCompress mem (huffInit info) file).Ends (.ok (0, dst)) ∧
    (huffDecompress mem' junk (huffInit info') dst).Ends (.ok (0, file))

section RoundTrips

variable (mem mem' : ℕ → ℕ → UInt8) (junk : List UInt8) (info info' : HuffInfo)

/-- Compressing a file for which the tables are prepared. -/
lemma huffCompress_ends_iff {info₁ info₂ : HuffInfo}
    (h : (huffPrepare info₁ file).Ends (.ok info₂)) (hroot : info₂.root < allNum)
    (dst : List UInt8) :
    (huffCompress mem info₁ file).Ends (.ok (0, dst)) ↔
      ∃ s, (putFile info₂ file).Ends (.ok s) ∧ dst = archive mem info₂ file.length s.flush := by
  rw [huffCompress, h.bind_iff, hfMakeHuffHead_eq mem file.length hroot, pure_bind]
  constructor
  · intro hends
    obtain ⟨s, hs, hret⟩ := Comp.ends_bind_ok_iff.1 hends
    exact ⟨s, hs, by simpa [archive] using hret⟩
  · rintro ⟨s, hs, rfl⟩
    exact hs.bind (by simp [archive])

lemma roundTrips_nil : RoundTrips mem mem' junk info info' [] := by
  obtain ⟨info₂, hprepare, hroot⟩ := huffPrepare_nil info
  have hlt : info₂.root < allNum := hroot ▸ (by decide)
  refine ⟨_, (huffCompress_ends_iff mem hprepare hlt _).2 ⟨⟨0, 0, []⟩, by simp [putFile], rfl⟩, ?_⟩
  rw [huffDecompress, hfUnpackHuffHead_archive hlt, pure_bind]
  simp [Writer.flush, getFile]

lemma not_roundTrips_single (hlen : file.length < sizeMod)
    (h1 : (usedLeaves (byteCount file)).length = 1) :
    ¬ RoundTrips mem mem' junk info info' file := by
  rintro ⟨dst, hdst, -⟩
  have hfault : (huffCompress mem (huffInit info) file).Ends (.error (.tableIndex unused)) :=
    (huffPrepare_single info hlen h1).bind_fault
  exact absurd (hdst.unique hfault) (by simp)

variable {info} in
/-- What the decoder writes for an archive with a code tree. -/
lemma huffDecompress_archive {t l r : CodeTree ℕ} {n : ℕ} (payload : List UInt8)
    (hnode : t = .node l r) (htree : TreeAt info.table t info.root) (hc : Climbs info)
    (hpos : 0 < n) (hn : n < sizeMod) :
    (huffDecompress mem' junk (huffInit info') (archive mem info n payload)).Ends (.ok (0,
      ((t.decodeFrom t (payload.flatMap byteBits)).take n).map UInt8.ofNat)) := by
  subst hnode
  have hroot := hc.root_lt
  have hlinks : ∀ y ≤ info.root, leafNum ≤ y → ∀ b, ((unpacked mem' junk (huffInit info')
      (archive mem info n payload)).table y).child b = (info.table y).child b := by
    intro y hy hleaf b
    refine child_unpacked hroot hy (fun d => ?_) b
    exact ((hc.child_lt y hleaf hy d).trans (hy.trans_lt hroot)).trans (by decide)
  have hsize : (unpacked mem' junk (huffInit info') (archive mem info n payload)).fileSize = n :=
    unpacked_fileSize hn
  have huroot : (unpacked mem' junk (huffInit info') (archive mem info n payload)).root =
      info.root := unpacked_root hroot
  have htree' := htree.congr hlinks
  rw [huffDecompress, hfUnpackHuffHead_archive hroot, pure_bind]
  generalize unpacked mem' junk (huffInit info') (archive mem info n payload) = u at *
  rw [← huroot] at htree' hroot
  subst hsize
  obtain ⟨s, hs, hdst⟩ := getFile_ends htree' hroot hn hpos payload
  rw [← hdst]
  exact hs.bind (by simp)

end RoundTrips

/-- Two codes with the same lengths that agree on a prefix agree on its symbols. -/
lemma eq_of_flatMap_isPrefix {α : Type} {f g : α → List Bool} {xs : List α} {pad : List Bool}
    (hlen : ∀ x ∈ xs, (f x).length = (g x).length)
    (h : xs.flatMap f <+: xs.flatMap g ++ pad) : ∀ x ∈ xs, f x = g x := by
  induction xs with
  | nil => simp
  | cons x xs ih =>
      obtain ⟨rest, hrest⟩ := h
      rw [List.flatMap_cons, List.flatMap_cons, List.append_assoc, List.append_assoc] at hrest
      -- the lengths say where the first code word ends
      obtain ⟨hx, hxs⟩ := List.append_inj hrest (hlen x (by simp))
      intro y hy
      rcases List.mem_cons.1 hy with rfl | hy
      · exact hx
      · exact ih (fun z hz => hlen z (by simp [hz])) ⟨rest, hxs⟩ y hy

lemma map_ofNat_map_toNat (file : List UInt8) :
    (file.map UInt8.toNat).map UInt8.ofNat = file := by
  rw [List.map_map]
  exact List.map_id'' (fun b => UInt8.ofNat_toNat) file

namespace Built

lemma treeAt_coded (h : Built w info z) : TreeAt (coded z.tree leafNum info).table z.tree
    (coded z.tree leafNum info).root :=
  h.treeAt.congr fun y _ _ b => by simp [HuffNode.child, tree_coded]

lemma climbs_coded (h : Built w info z) : Climbs (coded z.tree leafNum info) :=
  h.climbs.congr rfl (tree_coded z.tree leafNum info)

/-- The root is no leaf. -/
lemma exists_node (h : Built w info z) : ∃ l r, z.tree = .node l r := by
  have ht := h.treeAt
  have hroot := h.leafNum_le_root
  match hz : z.tree with
  | .leaf a =>
      rw [hz] at ht
      exact absurd ht.2 (not_lt.2 hroot)
  | .node l r => exact ⟨l, r, rfl⟩

/-- The bits of a file in the code of `hf_fill_code`, as far as the lengths are concerned. -/
lemma length_emitted (h : Built (byteCount file) info z) {i : ℕ}
    (hi : i ∈ file.map UInt8.toNat) :
    (emitted ((coded z.tree leafNum info).table i)).length = (z.tree.codeword i).length := by
  rw [emitted, List.length_map, List.length_range,
    h.codeLen_eq (mem_usedLeaves_byteCount.2 hi)]

/-- When the decoder gives a file back, the bits begin with the paths of its bytes. -/
lemma flatMap_codeword_isPrefix (h : Built w info z) {bits : List Bool}
    (hfile : ((z.tree.decodeFrom z.tree bits).take file.length).map UInt8.ofNat = file) :
    (file.map UInt8.toNat).flatMap z.tree.codeword <+: bits := by
  obtain ⟨l, r, hnode⟩ := h.exists_node
  have hlt : ∀ a ∈ (z.tree.decodeFrom z.tree bits).take file.length, a < 256 := by
    intro a ha
    have hm := CodeTree.mem_leaves_of_mem_decodeFrom (List.mem_of_mem_take ha)
    exact (h.mem_leaves.1 (or_self_iff.1 hm)).1
  have htake : (z.tree.decodeFrom z.tree bits).take file.length = file.map UInt8.toNat := by
    have hmap : (((z.tree.decodeFrom z.tree bits).take file.length).map UInt8.ofNat).map
        UInt8.toNat = (z.tree.decodeFrom z.tree bits).take file.length := by
      rw [List.map_map]
      refine (List.map_congr_left fun a ha => ?_).trans (List.map_id _)
      exact Nat.mod_eq_of_lt (hlt a ha)
    rw [← hmap, hfile]
  have hword : ∀ bs x, z.tree.IsPath bs x → bs = z.tree.codeword x := by
    intro bs x hp
    have hx := h.mem_leaves.1 hp.mem_leaves
    exact hp.unique h.nodup_leaves (h.isPath_codeword hx.1 hx.2)
  have hpre : (z.tree.decodeFrom z.tree bits).flatMap z.tree.codeword <+: bits := by
    rw [hnode] at hword ⊢
    simpa using CodeTree.flatMap_decodeFrom_prefix hword [] bits fun cs x hp => hp
  rw [← htake]
  refine List.IsPrefix.trans ?_ hpre
  conv_rhs => rw [← List.take_append_drop file.length (z.tree.decodeFrom z.tree bits),
    List.flatMap_append]
  exact List.prefix_append _ _

/-- The decoder gives the file back exactly when no code word is too long. -/
lemma decode_iff (h : Built (byteCount file) info z) (pad : List Bool) :
    ((z.tree.decodeFrom z.tree (payloadBits (coded z.tree leafNum info) file ++ pad)).take
        file.length).map UInt8.ofNat = file ↔ z.tree.height ≤ 16 := by
  obtain ⟨l, r, hnode⟩ := h.exists_node
  have hpayload : payloadBits (coded z.tree leafNum info) file =
      (file.map UInt8.toNat).flatMap fun i => emitted ((coded z.tree leafNum info).table i) := by
    rw [payloadBits, List.flatMap_map]
  have hpath : ∀ i ∈ file.map UInt8.toNat, z.tree.IsPath (z.tree.codeword i) i := by
    intro i hi
    have hu := mem_usedLeaves.1 (mem_usedLeaves_byteCount.2 hi)
    exact h.isPath_codeword hu.1 hu.2
  constructor
  · intro hfile
    by_contra hheight
    obtain ⟨bs, i, hp, hturn⟩ := CodeTree.exists_right_turn (not_le.1 hheight)
    have hu := h.mem_leaves.1 hp.mem_leaves
    have hi : i ∈ file.map UInt8.toNat := mem_usedLeaves_byteCount.1 (mem_usedLeaves.2 hu)
    have hbs : bs = z.tree.codeword i := hp.unique h.nodup_leaves (h.isPath_codeword hu.1 hu.2)
    -- the payload begins with the paths of the bytes, which are as long as the code words
    have hpre := h.flatMap_codeword_isPrefix hfile
    rw [hpayload] at hpre
    have heq := eq_of_flatMap_isPrefix (fun j hj => (h.length_emitted hj).symm) hpre i hi
    exact emitted_ne hturn (hbs ▸ (h.coded_table hu.1 hu.2).1) (heq.symm.trans hbs.symm)
  · intro hheight
    have hword : ∀ i ∈ file.map UInt8.toNat,
        emitted ((coded z.tree leafNum info).table i) = z.tree.codeword i := by
      intro i hi
      have hu := mem_usedLeaves.1 (mem_usedLeaves_byteCount.2 hi)
      exact h.emitted_coded hheight hu.1 hu.2
    have hbits : payloadBits (coded z.tree leafNum info) file =
        (file.map UInt8.toNat).flatMap z.tree.codeword := by
      rw [hpayload]
      exact List.flatMap_congr hword
    rw [hnode] at hpath hbits ⊢
    rw [hbits, CodeTree.decodeFrom_flatMap hpath, List.take_left' (List.length_map _),
      map_ofNat_map_toNat]

end Built

section RoundTrips

variable (mem mem' : ℕ → ℕ → UInt8) (junk : List UInt8) (info info' : HuffInfo)

lemma roundTrips_of_two (hlen : file.length < sizeMod)
    (h2 : 2 ≤ (usedLeaves (byteCount file)).length) :
    RoundTrips mem mem' junk info info' file ↔ (codeTree (byteCount file)).height ≤ 16 := by
  obtain ⟨info₂, z, hb, hprepare⟩ := huffPrepare_ends info hlen h2
  obtain ⟨l, r, hnode⟩ := hb.exists_node
  have hpos : 0 < file.length := by
    refine List.length_pos_of_ne_nil fun hnil => ?_
    obtain ⟨a, ha⟩ := List.exists_mem_of_length_pos (Nat.lt_of_lt_of_le Nat.two_pos h2)
    simpa [hnil] using mem_usedLeaves_byteCount.1 ha
  have hdecode : ∀ (s : Writer) (pad : List Bool), s.flush.flatMap byteBits =
      payloadBits (coded z.tree leafNum info₂) file ++ pad →
      (huffDecompress mem' junk (huffInit info') (archive mem (coded z.tree leafNum info₂)
        file.length s.flush)).Ends (.ok (0, ((z.tree.decodeFrom z.tree (payloadBits
          (coded z.tree leafNum info₂) file ++ pad)).take file.length).map UInt8.ofNat)) := by
    intro s pad hs
    rw [← hs]
    exact huffDecompress_archive mem mem' junk info' s.flush hnode hb.treeAt_coded
      hb.climbs_coded hpos hlen
  rw [hb.codeTree_eq]
  constructor
  · rintro ⟨dst, hdst, hback⟩
    obtain ⟨s, hs, rfl⟩ := (huffCompress_ends_iff mem hprepare hb.climbs_coded.root_lt dst).1 hdst
    obtain ⟨k, -, hk⟩ := (written_of_putFile file hs).flush
    refine (hb.decode_iff (List.replicate k false)).1 ?_
    have := (hdecode s _ hk).unique hback
    simpa using this
  · intro hheight
    have hcode : ∀ rbuf ∈ file,
        ((coded z.tree leafNum info₂).table rbuf.toNat).codeLen ≤ 32 := by
      intro rbuf hrbuf
      have hu := mem_usedLeaves_byteCount.2 (List.mem_map_of_mem hrbuf)
      have hlt := mem_usedLeaves.1 hu
      rw [hb.codeLen_eq hu]
      exact (CodeTree.height_le_iff.1 hheight _ _ (hb.isPath_codeword hlt.1 hlt.2)).trans
        (by norm_num)
    obtain ⟨s, hs, hw⟩ := putFile_ends file hcode
    obtain ⟨k, -, hk⟩ := hw.flush
    refine ⟨_, (huffCompress_ends_iff mem hprepare hb.climbs_coded.root_lt _).2 ⟨s, hs, rfl⟩, ?_⟩
    have hend := hdecode s _ hk
    rwa [(hb.decode_iff (List.replicate k false)).2 hheight] at hend

/-- **Which files survive.**  Compressing and decompressing gives a file back exactly when
it is empty or has two different bytes and no code word of more than 16 bits. -/
theorem roundTrips_iff (file : File) :
    RoundTrips mem mem' junk info info' file.bytes ↔
      file.bytes = [] ∨ (2 ≤ (usedLeaves (byteCount file.bytes)).length ∧
        (codeTree (byteCount file.bytes)).height ≤ 16) := by
  have hlen : file.bytes.length < sizeMod :=
    file.length_lt.trans (Nat.pow_lt_pow_right (by norm_num) (by norm_num))
  by_cases hnil : file.bytes = []
  · rw [hnil]
    exact iff_of_true (roundTrips_nil mem mem' junk info info') (Or.inl rfl)
  · rw [or_iff_right hnil]
    by_cases h2 : 2 ≤ (usedLeaves (byteCount file.bytes)).length
    · rw [roundTrips_of_two mem mem' junk info info' hlen h2, and_iff_right h2]
    · obtain ⟨b, hb⟩ := List.exists_mem_of_ne_nil _ hnil
      have hpos : 0 < (usedLeaves (byteCount file.bytes)).length :=
        List.length_pos_of_mem (mem_usedLeaves_byteCount.2 (List.mem_map_of_mem hb))
      have h1 : (usedLeaves (byteCount file.bytes)).length = 1 := by omega
      exact iff_of_false (not_roundTrips_single mem mem' junk info info' hlen h1)
        fun h => h2 h.1

end RoundTrips

/-- A file of one byte does not survive. -/
theorem not_roundTrips_one_byte : ¬ RoundTrips (fun _ _ => 0) (fun _ _ => 0) []
    ⟨fun _ => .fresh, ⟨id, id⟩, 0, 0⟩ ⟨fun _ => .fresh, ⟨id, id⟩, 0, 0⟩ [97] :=
  not_roundTrips_single _ _ _ _ _ (by norm_num [sizeMod]) (by decide +kernel)

end Huffman

end DemoClass
