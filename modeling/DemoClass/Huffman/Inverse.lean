import DemoClass.Huffman.RoundTrip

/-!
# The decoder inverts the tree

Whatever the code words in the table are, the decoder goes by the links.  So it gives back
every sequence of used bytes from the paths of its bytes, also where a path has more bits
than `code` (`huffDecompress_paths`).
-/

namespace DemoClass

namespace Huffman

variable {w : ℕ → ℕ} {info : HuffInfo} {z : Weighted ℕ}

namespace Built

/-- The only way from the root to a used leaf. -/
lemma path_iff (h : Built w info z) {i : ℕ} (hi : i < leafNum) (hw : w i ≠ 0) (bs : List Bool) :
    Path info.table info.root bs i ↔ bs = z.tree.codeword i := by
  constructor
  · intro hp
    have hp' : z.tree.IsPath bs i := h.treeAt.isPath_iff.2 ⟨hp, hi⟩
    exact hp'.unique h.nodup_leaves (h.isPath_codeword hi hw)
  · rintro rfl
    exact (h.treeAt.isPath_iff.1 (h.isPath_codeword hi hw)).1

/-- The symbols that the paths of some used bytes and a padding spell begin with the
bytes. -/
lemma decode_paths (h : Built w info z) {s : List UInt8} (hs : ∀ b ∈ s, w b.toNat ≠ 0)
    (pad : List Bool) :
    ((z.tree.decodeFrom z.tree ((s.flatMap fun b => z.tree.codeword b.toNat) ++ pad)).take
      s.length).map UInt8.ofNat = s := by
  obtain ⟨l, r, hnode⟩ := h.exists_node
  have hpath : ∀ i ∈ s.map UInt8.toNat, z.tree.IsPath (z.tree.codeword i) i := by
    intro i hi
    obtain ⟨b, hb, rfl⟩ := List.mem_map.1 hi
    exact h.isPath_codeword b.toNat_lt (hs b hb)
  have hmap : (s.flatMap fun b => z.tree.codeword b.toNat) =
      (s.map UInt8.toNat).flatMap z.tree.codeword := by rw [List.flatMap_map]
  rw [hmap]
  rw [hnode] at hpath ⊢
  rw [CodeTree.decodeFrom_flatMap hpath, List.take_left' (List.length_map _),
    map_ofNat_map_toNat]

end Built

/-- **The decoder inverts the tree.**  On an archive with the table that
`hf_build_hufftree` made of any weights of two or more bytes, whose payload is the paths of
some used bytes, padded with zeros, and whose `file_size` is their number,
`huff_decompress` writes these bytes and nothing else. -/
theorem huffDecompress_paths (w : ℕ → ℕ) (h2 : 2 ≤ (usedLeaves w).length)
    (mem mem' : ℕ → ℕ → UInt8) (junk : List UInt8) (info info' : HuffInfo) :
    ∃ (info₁ info₂ : HuffInfo) (path : ℕ → List Bool),
      (hfBuildSortList (setWeights w (huffInit info))).Ends (.ok info₁) ∧
      (hfBuildHufftree info₁).Ends (.ok info₂) ∧
      (∀ i < leafNum, w i ≠ 0 → ∀ bs, Path info₂.table info₂.root bs i ↔ bs = path i) ∧
      ∀ (s payload : List UInt8) (k : ℕ), (∀ b ∈ s, w b.toNat ≠ 0) → s.length < sizeMod → k < 8 →
        payload.flatMap byteBits = (s.flatMap fun b => path b.toNat) ++ List.replicate k false →
        (huffDecompress mem' junk (huffInit info') (archive mem info₂ s.length payload)).Ends
          (.ok (0, s)) := by
  obtain ⟨info₁, info₂, z, hsort, hend, hbuilt, -⟩ := tables_ends w info h2
  refine ⟨info₁, info₂, z.tree.codeword, hsort, hend, fun i hi hw => hbuilt.path_iff hi hw, ?_⟩
  intro s payload k hs hlen hk hbits
  by_cases hnil : s = []
  · subst hnil
    -- less than a byte of padding is no byte
    have hpayload : payload = [] := by
      have h := congrArg List.length hbits
      rw [length_flatMap_byteBits] at h
      simp only [List.flatMap_nil, List.nil_append, List.length_replicate] at h
      exact List.length_eq_zero_iff.1 (by omega)
    subst hpayload
    rw [huffDecompress, hfUnpackHuffHead_archive hbuilt.root_lt, pure_bind]
    simp [getFile]
  · obtain ⟨l, r, hnode⟩ := hbuilt.exists_node
    have h := huffDecompress_archive mem mem' junk info' payload hnode hbuilt.treeAt
      hbuilt.climbs (List.length_pos_of_ne_nil hnil) hlen
    rw [hbits, hbuilt.decode_paths hs] at h
    exact h

/-- The tree of four bytes. -/
theorem huffDecompress_paths_four :
    ∃ (info₁ info₂ : HuffInfo) (path : ℕ → List Bool),
      (hfBuildSortList (setWeights fourBytes
        (huffInit ⟨fun _ => .fresh, ⟨id, id⟩, 0, 0⟩))).Ends (.ok info₁) ∧
      (hfBuildHufftree info₁).Ends (.ok info₂) ∧
      (∀ i < leafNum, fourBytes i ≠ 0 →
        ∀ bs, Path info₂.table info₂.root bs i ↔ bs = path i) ∧
      ∀ (s payload : List UInt8) (k : ℕ), (∀ b ∈ s, fourBytes b.toNat ≠ 0) →
        s.length < sizeMod → k < 8 →
        payload.flatMap byteBits = (s.flatMap fun b => path b.toNat) ++ List.replicate k false →
        (huffDecompress (fun _ _ => 0) [] (huffInit ⟨fun _ => .fresh, ⟨id, id⟩, 0, 0⟩)
          (archive (fun _ _ => 0) info₂ s.length payload)).Ends (.ok (0, s)) :=
  huffDecompress_paths fourBytes two_le_fourBytes _ _ _ _ _

end Huffman

end DemoClass
