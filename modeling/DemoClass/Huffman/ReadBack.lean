import DemoClass.Huffman.Decode
import DemoClass.Huffman.Encode

/-!
# Reading an archive back

The header and the links of the table survive (`child_unpacked`), and on a table that
holds a code tree the decoder writes the first `file_size` symbols that the payload
spells (`getFile_ends`).
-/

namespace DemoClass

namespace Huffman

variable {info : HuffInfo}

/-! ### Fields of a memory image -/

lemma field_append (xs ys : List UInt8) {k v : ℕ} (h : v < 256 ^ k) :
    field (xs ++ (leBytes k v ++ ys)) xs.length k = v := by
  have htake : (leBytes k v ++ ys).take k = leBytes k v :=
    List.take_left' (length_leBytes k v)
  rw [field, List.drop_left, htake, leValue_leBytes h]

@[simp] lemma length_headBytes (root fileSize : ℕ) :
    (headBytes root fileSize).length = headSize := by
  simp [headBytes, headSize]

@[simp] lemma length_nodeBytes (mem : ℕ → UInt8) (n : HuffNode) :
    (nodeBytes mem n).length = nodeSize := by
  simp [nodeBytes, nodeSize]

lemma field_magic (root fileSize : ℕ) (rest : List UInt8) :
    field (headBytes root fileSize ++ rest) 0 4 = huffMagic := by
  have h := field_append [] (leBytes 2 0x33 ++ leBytes 2 root ++ leBytes 8 fileSize ++ rest)
    (show huffMagic < 256 ^ 4 by decide)
  simpa [headBytes] using h

lemma field_root {root : ℕ} (h : root < 256 ^ 2) (fileSize : ℕ) (rest : List UInt8) :
    field (headBytes root fileSize ++ rest) 6 2 = root := by
  have h' := field_append (leBytes 4 huffMagic ++ leBytes 2 0x33) (leBytes 8 fileSize ++ rest) h
  simpa [headBytes] using h'

lemma field_fileSize {fileSize : ℕ} (h : fileSize < 256 ^ 8) (root : ℕ) (rest : List UInt8) :
    field (headBytes root fileSize ++ rest) 8 8 = fileSize := by
  have h' := field_append (leBytes 4 huffMagic ++ leBytes 2 0x33 ++ leBytes 2 root) rest h
  simpa [headBytes] using h'

/-- The links of a node survive. -/
lemma child_nodeOf (mem : ℕ → UInt8) {n : HuffNode} (h : ∀ b, n.child b < 256 ^ 2) (b : Bool) :
    (nodeOf (nodeBytes mem n)).child b = n.child b := by
  cases b with
  | false =>
      have h' := field_append ((List.range 16).map mem ++ leBytes 2 n.tree.parent)
        (leBytes 2 n.tree.rchild ++ (List.range 2).map (fun j => mem (22 + j)) ++
          leBytes 8 n.weight ++ leBytes 2 n.code ++ leBytes 1 n.codeLen ++
          (List.range 5).map fun j => mem (35 + j)) (h false)
      simpa [nodeOf, nodeBytes] using h'
  | true =>
      have h' := field_append ((List.range 16).map mem ++ leBytes 2 n.tree.parent ++
          leBytes 2 n.tree.lchild)
        ((List.range 2).map (fun j => mem (22 + j)) ++ leBytes 8 n.weight ++
          leBytes 2 n.code ++ leBytes 1 n.codeLen ++ (List.range 5).map fun j => mem (35 + j))
        (h true)
      simpa [nodeOf, nodeBytes] using h'

/-! ### The table -/

lemma tableBytes_succ (mem : ℕ → ℕ → UInt8) (table : ℕ → HuffNode) (n : ℕ) :
    tableBytes mem table (n + 1) = tableBytes mem table n ++ nodeBytes (mem n) (table n) := by
  simp [tableBytes, List.range_succ]

@[simp] lemma length_tableBytes (mem : ℕ → ℕ → UInt8) (table : ℕ → HuffNode) (n : ℕ) :
    (tableBytes mem table n).length = nodeSize * n := by
  induction n with
  | zero => simp [tableBytes]
  | succ n ih => rw [tableBytes_succ, List.length_append, ih, length_nodeBytes, Nat.mul_succ]

/-- The bytes of the entry `i`. -/
lemma drop_tableBytes (mem : ℕ → ℕ → UInt8) (table : ℕ → HuffNode) {n i : ℕ} (h : i < n) :
    ((tableBytes mem table n).drop (nodeSize * i)).take nodeSize = nodeBytes (mem i) (table i) := by
  have hsplit : tableBytes mem table n = tableBytes mem table i ++
      (nodeBytes (mem i) (table i) ++ ((List.range (n - i - 1)).map fun j => i + (j + 1)).flatMap
        fun j => nodeBytes (mem j) (table j)) := by
    rw [tableBytes, range_eq_append_cons h, List.flatMap_append, List.flatMap_cons]
    rfl
  rw [hsplit, List.drop_left' (length_tableBytes mem table i),
    List.take_left' (length_nodeBytes (mem i) (table i))]

lemma child_readTable {mem mem' : ℕ → ℕ → UInt8} {table table' : ℕ → HuffNode} {n i : ℕ}
    (hi : i < n) (h : ∀ b, (table i).child b < 256 ^ 2) (b : Bool) :
    (readTable mem' table' (tableBytes mem table n) i).child b = (table i).child b := by
  have hbytes := drop_tableBytes mem table hi
  have hne : nodeBytes (mem i) (table i) ≠ [] := by
    refine List.ne_nil_of_length_pos ?_
    rw [length_nodeBytes]
    decide
  have hover : readOver (nodeBytes (mem i) (table i)) (nodeBytes (mem' i) (table' i)) =
      nodeBytes (mem i) (table i) := by
    rw [readOver, List.drop_of_length_le (by simp), List.append_nil]
  simp only [readTable, hbytes, if_neg hne, hover]
  exact child_nodeOf (mem i) h b

/-! ### The archive -/

/-- An archive as `huff_compress` writes it. -/
def archive (mem : ℕ → ℕ → UInt8) (info : HuffInfo) (fileSize : ℕ) (payload : List UInt8) :
    List UInt8 :=
  headBytes info.root fileSize ++ tableBytes mem info.table (info.root + 1) ++ payload

section Archive

variable {mem mem' : ℕ → ℕ → UInt8} {junk payload : List UInt8} {info' : HuffInfo} {fileSize : ℕ}

lemma headOf_archive : headOf junk (archive mem info fileSize payload) =
    headBytes info.root fileSize ++ junk.drop headSize := by
  have htake : (archive mem info fileSize payload).take headSize =
      headBytes info.root fileSize := by
    rw [archive, List.append_assoc]
    exact List.take_left' (length_headBytes _ _)
  rw [headOf, htake, readOver, length_headBytes]

lemma drop_archive : (archive mem info fileSize payload).drop headSize =
    tableBytes mem info.table (info.root + 1) ++ payload := by
  rw [archive, List.append_assoc]
  exact List.drop_left' (length_headBytes _ _)

lemma root_archive (h : info.root < allNum) :
    field (headOf junk (archive mem info fileSize payload)) 6 2 = info.root := by
  rw [headOf_archive]
  exact field_root (h.trans (by decide)) _ _

lemma tableOf_archive (h : info.root < allNum) :
    tableOf junk (archive mem info fileSize payload) =
      tableBytes mem info.table (info.root + 1) := by
  rw [tableOf, root_archive h, drop_archive]
  exact List.take_left' (length_tableBytes _ _ _)

lemma payloadOf_archive (h : info.root < allNum) :
    payloadOf junk (archive mem info fileSize payload) = payload := by
  rw [payloadOf, root_archive h, drop_archive]
  exact List.drop_left' (length_tableBytes _ _ _)

/-- An archive is unpacked without a fault. -/
lemma hfUnpackHuffHead_archive (h : info.root < allNum) :
    hfUnpackHuffHead mem' junk info' (archive mem info fileSize payload) =
      pure (0, unpacked mem' junk info' (archive mem info fileSize payload), payload) := by
  have hmagic : field (headOf junk (archive mem info fileSize payload)) 0 4 = huffMagic := by
    rw [headOf_archive]
    exact field_magic _ _ _
  have hfit : ¬ nodeSize * allNum < (tableOf junk (archive mem info fileSize payload)).length := by
    rw [tableOf_archive h, length_tableBytes, not_lt]
    exact Nat.mul_le_mul_left _ h
  rw [hfUnpackHuffHead_of_eq hmagic, if_neg hfit, payloadOf_archive h]

lemma unpacked_root (h : info.root < allNum) :
    (unpacked mem' junk info' (archive mem info fileSize payload)).root = info.root :=
  root_archive h

lemma unpacked_fileSize (h : fileSize < 256 ^ 8) :
    (unpacked mem' junk info' (archive mem info fileSize payload)).fileSize = fileSize := by
  show field (headOf junk (archive mem info fileSize payload)) 8 8 = fileSize
  rw [headOf_archive]
  exact field_fileSize h _ _

/-- The links of the table survive. -/
lemma child_unpacked (h : info.root < allNum) {i : ℕ} (hi : i ≤ info.root)
    (hc : ∀ b, (info.table i).child b < 256 ^ 2) (b : Bool) :
    ((unpacked mem' junk info' (archive mem info fileSize payload)).table i).child b =
      (info.table i).child b := by
  rw [unpacked, tableOf_archive h]
  exact child_readTable (Nat.lt_succ_of_le hi) hc b

end Archive

/-! ### The payload -/

/-- **The decoder reads the code tree.**  Standing on a node of the tree with fewer than
`file_size` bytes written, it writes the symbols that the bits spell, up to `file_size`
of them. -/
lemma getBits_ends {l₀ r₀ : CodeTree ℕ} (htree : TreeAt info.table (.node l₀ r₀) info.root)
    (hroot : info.root < allNum) (hsize : info.fileSize < sizeMod) (bits : List Bool) :
    ∀ {l r : CodeTree ℕ} {s : Reader}, TreeAt info.table (.node l r) s.cur → s.cur < allNum →
      s.fileSize < info.fileSize →
      ∃ res, (getBits info bits s).Ends (.ok res) ∧
        (result res).dst = s.dst ++ ((CodeTree.decodeFrom (.node l₀ r₀) (.node l r) bits).take
          (info.fileSize - s.fileSize)).map UInt8.ofNat := by
  induction bits with
  | nil =>
      intro l r s _ _ _
      exact ⟨.inl s, by simp [getBits], by simp [result, CodeTree.decodeFrom]⟩
  | cons bit bits ih =>
      intro l r s hs hcur hlt
      obtain ⟨hleaf, hl, hr, htl, htr⟩ := hs
      have hchild : (info.table s.cur).child bit < s.cur := by
        cases bit
        · exact hl
        · exact hr
      have hturn : TreeAt info.table ((CodeTree.node l r).turn bit)
          ((info.table s.cur).child bit) := by
        cases bit
        · exact htl
        · exact htr
      rcases ht : (CodeTree.node l r).turn bit with a | ⟨l', r'⟩
      · rw [ht] at hturn
        obtain ⟨rfl, ha⟩ := hturn
        have hmod : (s.fileSize + 1) % sizeMod = s.fileSize + 1 :=
          Nat.mod_eq_of_lt (by omega)
        -- a leaf: the last symbol, or the decoder goes on at the root
        by_cases hend : s.fileSize + 1 = info.fileSize
        · refine ⟨.inr ⟨info.root, info.fileSize,
            s.dst ++ [UInt8.ofNat ((info.table s.cur).child bit)]⟩, ?_, ?_⟩
          · rw [hend] at hmod
            simp [getBits, getBit, hcur, ha, hmod, hend]
          · have hone : info.fileSize - s.fileSize = 1 := by omega
            simp [result, CodeTree.decodeFrom, ht, hone]
        · obtain ⟨res, hres, hdst⟩ := @ih l₀ r₀ ⟨info.root, s.fileSize + 1,
            s.dst ++ [UInt8.ofNat ((info.table s.cur).child bit)]⟩ htree hroot
              (by dsimp only; omega)
          refine ⟨res, ?_, ?_⟩
          · simpa [getBits, getBit, hcur, ha, hmod, hend] using hres
          · have hsucc : info.fileSize - s.fileSize = info.fileSize - (s.fileSize + 1) + 1 := by
              omega
            simp [hdst, CodeTree.decodeFrom, ht, hsucc]
      · rw [ht] at hturn
        -- an inner node: nothing is written
        have hge : ¬ (info.table s.cur).child bit < leafNum := not_lt.2 hturn.1
        obtain ⟨res, hres, hdst⟩ := @ih l' r' ⟨(info.table s.cur).child bit, s.fileSize, s.dst⟩
          hturn (hchild.trans hcur) hlt
        refine ⟨res, ?_, ?_⟩
        · simpa [getBits, getBit, hcur, hge] using hres
        · simp [hdst, CodeTree.decodeFrom, ht]

/-- The decoder writes the first `file_size` symbols that the payload spells. -/
lemma getFile_ends {l r : CodeTree ℕ} (htree : TreeAt info.table (.node l r) info.root)
    (hroot : info.root < allNum) (hsize : info.fileSize < sizeMod) (hpos : 0 < info.fileSize)
    (src : List UInt8) :
    ∃ s, (getFile info src ⟨info.root, 0, []⟩).Ends (.ok s) ∧
      s.dst = ((CodeTree.decodeFrom (.node l r) (.node l r) (src.flatMap byteBits)).take
        info.fileSize).map UInt8.ofNat := by
  obtain ⟨res, hres, hdst⟩ := getBits_ends htree hroot hsize (src.flatMap byteBits)
    (s := ⟨info.root, 0, []⟩) htree hroot hpos
  refine ⟨result res, ?_, by simpa using hdst⟩
  rw [getFile_eq]
  exact hres.bind (by simp)

end Huffman

end DemoClass
