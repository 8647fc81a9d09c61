import DemoClass.Huffman.ShortFiles
import Mathlib.Data.Nat.Log

/-!
# How large an archive is

An archive holds the table up to the root, 40 bytes for each entry, and at least 257 of them.  For
the payload the code of `hf_fill_code` is compared with one that gives every used byte a word of
the same length (`cost_le_clog`).  So compressing makes a file hardly longer than its table, and
makes no short file shorter (`archive_size`).
-/

namespace DemoClass

namespace Huffman

variable {w : ℕ → ℕ} {info : HuffInfo} {z : Weighted ℕ} {file : List UInt8}

/-- Words of one length satisfy the Kraft inequality when they are long enough. -/
lemma kraft_clog (t : Finset ℕ) : Kraft (Nat.clog 2 t.card) t fun _ => Nat.clog 2 t.card where
  le _ _ := le_rfl
  sum_le := by
    rw [Nat.sub_self, pow_zero, Finset.sum_const, smul_eq_mul, mul_one]
    exact Nat.le_pow_clog Nat.one_lt_two _

/-- No more bits than with words of one length. -/
lemma cost_le_clog (h2 : 2 ≤ (usedLeaves w).length) (ht : totalWeight w < 2 ^ 31) :
    (codeTree w).cost w ≤ totalWeight w * Nat.clog 2 (usedLeaves w).length := by
  have hcost := codeTree_cost_le h2 ht (kraft_clog (usedLeaves w).toFinset)
  rwa [List.sum_map_mul_right, List.toFinset_card_of_nodup (nodup_usedLeaves w)] at hcost

namespace Built

/-- The length of the payload in bits. -/
lemma length_payloadBits_eq (h : Built (byteCount file) info z) :
    (payloadBits (coded z.tree leafNum info) file).length =
      (codeTree (byteCount file)).cost (byteCount file) := by
  rw [length_payloadBits, h.codeTree_eq, ← h.sum_codeLen]
  exact sum_bytes file fun i => ((coded z.tree leafNum info).table i).codeLen

/-- Every byte takes a bit. -/
lemma length_le_payloadBits (h : Built (byteCount file) info z) :
    file.length ≤ (payloadBits (coded z.tree leafNum info) file).length := by
  obtain ⟨l, r, hnode⟩ := h.exists_node
  have hone : ∀ n ∈ file.map fun b => ((coded z.tree leafNum info).table b.toNat).codeLen,
      1 ≤ n := by
    intro n hn
    obtain ⟨b, hb, rfl⟩ := List.mem_map.1 hn
    have hused := mem_usedLeaves_byteCount.2 (List.mem_map_of_mem hb)
    rw [h.codeLen_eq hused, hnode, CodeTree.codeword]
    split_ifs <;> simp
  have hsum := List.card_nsmul_le_sum _ 1 hone
  rwa [List.length_map, smul_eq_mul, mul_one, ← length_payloadBits] at hsum

end Built

/-- **The size of an archive.**  With `k` different bytes, the archive of a file has a header, a
table of `255 + k` entries, and a payload with at least one bit and at most `⌈log₂ k⌉` bits for
each byte of the file.  A file that gets shorter has at least 11768 bytes. -/
theorem archive_size (mem : ℕ → ℕ → UInt8) (info : HuffInfo) (file : List UInt8)
    (hlen : file.length < 2 ^ 31) (hbytes : ∃ a ∈ file, ∃ b ∈ file, a ≠ b) {dst : List UInt8}
    (hdst : (huffCompress mem (huffInit info) file).Ends (.ok (0, dst))) :
    ∃ payload, dst.length =
        headSize + nodeSize * (255 + (usedLeaves (byteCount file)).length) + payload ∧
      (file.length + 7) / 8 ≤ payload ∧
      payload ≤ (file.length * Nat.clog 2 (usedLeaves (byteCount file)).length + 7) / 8 ∧
      (dst.length < file.length → 11768 ≤ file.length) := by
  have h2 := two_le_usedLeaves_iff.2 hbytes
  have hsize : file.length < sizeMod := hlen.trans (by decide)
  have htotal := totalWeight_byteCount file
  obtain ⟨info₂, z, hb, hprepare⟩ := huffPrepare_ends info hsize h2
  obtain ⟨s, hs, rfl⟩ := (huffCompress_ends_iff mem hprepare hb.climbs_coded.root_lt dst).1 hdst
  have hpayload := (written_of_putFile file hs).length_flush
  have hlow := hb.length_le_payloadBits
  have hhigh := cost_le_clog h2 (by rwa [htotal])
  rw [← hb.length_payloadBits_eq, htotal] at hhigh
  have hroot : (coded z.tree leafNum info₂).root = 254 + (usedLeaves (byteCount file)).length :=
    hb.root_eq
  have harchive : (archive mem (coded z.tree leafNum info₂) file.length s.flush).length =
      headSize + nodeSize * (255 + (usedLeaves (byteCount file)).length) + s.flush.length := by
    rw [archive, List.length_append, List.length_append, length_headBytes, length_tableBytes, hroot]
    congr 3
    omega
  refine ⟨s.flush.length, harchive, ?_, ?_, ?_⟩
  · rw [hpayload]
    omega
  · rw [hpayload]
    omega
  · rw [harchive, hpayload, headSize, nodeSize]
    omega

/-- A file of four bytes. -/
theorem archive_size_four : ∃ dst,
    (huffCompress (fun _ _ => 0) (huffInit ⟨fun _ => .fresh, ⟨id, id⟩, 0, 0⟩)
      [97, 98, 97, 99]).Ends (.ok (0, dst)) ∧ dst.length = 10337 := by
  have h2 : 2 ≤ (usedLeaves (byteCount [97, 98, 97, 99])).length := by decide +kernel
  obtain ⟨dst, hdst, -⟩ := (roundTrips_of_two (fun _ _ => 0) (fun _ _ => 0) []
    ⟨fun _ => .fresh, ⟨id, id⟩, 0, 0⟩ ⟨fun _ => .fresh, ⟨id, id⟩, 0, 0⟩ (by decide) h2).2
    (by decide +kernel)
  refine ⟨dst, hdst, ?_⟩
  obtain ⟨payload, hlength, hlow, hhigh, -⟩ := archive_size (fun _ _ => 0)
    ⟨fun _ => .fresh, ⟨id, id⟩, 0, 0⟩ [97, 98, 97, 99] (by decide) (by decide) hdst
  have hk : (usedLeaves (byteCount [97, 98, 97, 99])).length = 3 := by decide +kernel
  have hlog : Nat.clog 2 3 = 2 := by decide +kernel
  rw [hk, hlog] at hhigh
  rw [hk, headSize, nodeSize] at hlength
  simp only [List.length_cons, List.length_nil] at hlow hhigh
  omega

end Huffman

end DemoClass
