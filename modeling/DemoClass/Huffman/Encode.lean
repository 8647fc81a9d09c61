import DemoClass.Huffman.Archive
import DemoClass.Huffman.Code

/-!
# What `huff_compress` writes

The invariant `Written` relates the variables of the second pass to the bits that were
put so far.  At the end the payload holds the bits of the code words of the file,
filled up with zeros (`Written.flush`).
-/

namespace DemoClass

namespace Huffman

variable {info : HuffInfo} {node : HuffNode} {s s' : Writer} {bits : List Bool}

/-- The bits `bits` were put: those of the full bytes are written, the others stand in
`wbuf`. -/
def Written (s : Writer) (bits : List Bool) : Prop :=
  ∃ pending, s.dst.flatMap byteBits ++ pending = bits ∧ pending.length = s.count ∧
    s.count < 8 ∧ s.wbuf = msbValue pending

lemma written_start : Written ⟨0, 0, []⟩ [] := ⟨[], rfl, rfl, by decide, rfl⟩

/-- Shifting a bit into an unfinished byte. -/
lemma shiftIn {pending : List Bool} (h : pending.length < 8) (b : Bool) :
    msbValue pending * 2 % charMod ||| b.toNat = msbValue (pending ++ [b]) := by
  have hlt : msbValue pending * 2 < charMod := by
    have h₁ := msbValue_lt pending
    have h₂ : 2 ^ pending.length ≤ 2 ^ 7 := Nat.pow_le_pow_right (by norm_num) (by omega)
    simp only [charMod]
    omega
  have hb : b.toNat < 2 ^ 1 := b.toNat_lt
  rw [Nat.mod_eq_of_lt hlt, msbValue_concat, Nat.mul_comm]
  exact (Nat.two_pow_add_eq_or_of_lt hb (msbValue pending)).symm

namespace Written

lemma put (h : Written s bits) (b : Bool) : Written (s.put b.toNat) (bits ++ [b]) := by
  obtain ⟨pending, hbits, hlen, hlt, hwbuf⟩ := h
  have hshift := shiftIn (hlen ▸ hlt) b
  by_cases hfull : s.count + 1 = 8
  · have hput : s.put b.toNat = ⟨0, 0, s.dst ++ [UInt8.ofNat (msbValue (pending ++ [b]))]⟩ := by
      simp [Writer.put, hfull, hwbuf, hshift]
    have hbyte : byteBits (UInt8.ofNat (msbValue (pending ++ [b]))) = pending ++ [b] :=
      byteBits_msbValue (by simp [hlen, hfull])
    rw [hput]
    refine ⟨[], ?_, rfl, Nat.zero_lt_succ 7, rfl⟩
    simp [hbyte, ← hbits]
  · have hput : s.put b.toNat = ⟨msbValue (pending ++ [b]), s.count + 1, s.dst⟩ := by
      simp [Writer.put, hfull, hwbuf, hshift]
    rw [hput]
    exact ⟨pending ++ [b], by simp [← hbits], by simp [hlen], by dsimp only; omega, rfl⟩

/-- The last byte is filled up with zeros. -/
lemma flush (h : Written s bits) :
    ∃ k < 8, s.flush.flatMap byteBits = bits ++ List.replicate k false := by
  obtain ⟨pending, hbits, hlen, hlt, hwbuf⟩ := h
  by_cases hzero : s.count = 0
  · have hnil : pending = [] := List.eq_nil_of_length_eq_zero (hlen.trans hzero)
    exact ⟨0, Nat.zero_lt_succ 7, by simp [Writer.flush, hzero, ← hbits, hnil]⟩
  · have hbyte : byteBits (UInt8.ofNat (s.wbuf * 2 ^ (8 - s.count))) =
        pending ++ List.replicate (8 - s.count) false := by
      rw [hwbuf, ← msbValue_append_replicate]
      refine byteBits_msbValue ?_
      rw [List.length_append, List.length_replicate, hlen]
      omega
    refine ⟨8 - s.count, by omega, ?_⟩
    rw [Writer.flush, if_pos hzero, List.flatMap_append, List.flatMap_singleton, hbyte, ← hbits,
      List.append_assoc]

/-- It takes as many bytes as the bits need. -/
lemma length_flush (h : Written s bits) : s.flush.length = (bits.length + 7) / 8 := by
  obtain ⟨k, hk, hflush⟩ := h.flush
  have hlen := congrArg List.length hflush
  rw [length_flatMap_byteBits, List.length_append, List.length_replicate] at hlen
  omega

end Written

lemma range_eq_append_cons {n i : ℕ} (h : i < n) : List.range n =
    List.range i ++ i :: (List.range (n - i - 1)).map fun j => i + (j + 1) := by
  have htail : (List.range (n - i - 1 + 1)).map (fun j => i + j) =
      i :: (List.range (n - i - 1)).map fun j => i + (j + 1) := by
    rw [List.range_succ_eq_map, List.map_cons, List.map_map]
    rfl
  have hn : n = i + (n - i - 1 + 1) := by omega
  conv_lhs => rw [hn, List.range_add, htail]

lemma bit_eq (code i : ℕ) : (code >>> i) &&& 1 = (code.testBit i).toNat := by
  rw [Nat.and_one_is_mod, Nat.shiftRight_eq_div_pow, Nat.toNat_testBit]

/-- The first `n` bits of the code are put, unless a shift is too wide. -/
lemma putBits_ends (node : HuffNode) (h : Written s bits) {n : ℕ} (hn : n ≤ 32) :
    ∃ s', ((List.range n).foldlM (fun s i =>
      if 32 ≤ i then Comp.fault (.shift i) else pure (s.put ((node.code >>> i) &&& 1))) s :
        Comp Fault Writer) = pure s' ∧
      Written s' (bits ++ (List.range n).map fun i => node.code.testBit i) := by
  induction n with
  | zero => exact ⟨s, rfl, by simpa using h⟩
  | succ n ih =>
      obtain ⟨s', hs', hw⟩ := ih (by omega)
      have hn' : ¬ 32 ≤ n := by omega
      refine ⟨s'.put (node.code.testBit n).toNat, ?_, ?_⟩
      · rw [List.range_succ, List.foldlM_append, hs', pure_bind]
        simp only [List.foldlM_cons, List.foldlM_nil, if_neg hn', bit_eq, bind_pure]
      · rw [List.range_succ, List.map_append, ← List.append_assoc]
        exact hw.put _

lemma putCode_ends (h : Written s bits) (hlen : node.codeLen ≤ 32) :
    ∃ s', putCode node s = pure s' ∧ Written s' (bits ++ emitted node) :=
  putBits_ends node h hlen

/-- A code word of more than 32 bits faults. -/
lemma codeLen_le (h : (putCode node s).Ends (.ok s')) : node.codeLen ≤ 32 := by
  by_contra hlen
  rw [putCode, range_eq_append_cons (not_le.1 hlen), List.foldlM_append] at h
  obtain ⟨s₁, -, h₁⟩ := Comp.ends_bind_ok_iff.1 h
  simp at h₁

/-- The bits of the code words of `file`. -/
def payloadBits (info : HuffInfo) (file : List UInt8) : List Bool :=
  file.flatMap fun rbuf => emitted (info.table rbuf.toNat)

/-- One more byte of the file. -/
lemma putFile_concat (info : HuffInfo) (file : List UInt8) (rbuf : UInt8) :
    putFile info (file ++ [rbuf]) =
      putFile info file >>= fun s => putCode (info.table rbuf.toNat) s := by
  have hlt : rbuf.toNat < allNum := rbuf.toNat_lt.trans (by decide)
  rw [putFile, putFile, List.foldlM_append]
  simp [hlt]

/-- The second pass puts the code words of all bytes. -/
lemma putFile_ends (file : List UInt8)
    (h : ∀ rbuf ∈ file, (info.table rbuf.toNat).codeLen ≤ 32) :
    ∃ s, (putFile info file).Ends (.ok s) ∧ Written s (payloadBits info file) := by
  induction file using List.reverseRecOn with
  | nil => exact ⟨_, by simp [putFile], written_start⟩
  | append_singleton file rbuf ih =>
      obtain ⟨s, hs, hw⟩ := ih fun b hb => h b (by simp [hb])
      obtain ⟨s', hs', hw'⟩ := putCode_ends hw (h rbuf (by simp))
      refine ⟨s', ?_, by simpa [payloadBits] using hw'⟩
      rw [putFile_concat]
      exact hs.bind (by simp [hs'])

/-- If the second pass ends without a fault, it has put the code words of all bytes. -/
lemma written_of_putFile (file : List UInt8) {s : Writer}
    (h : (putFile info file).Ends (.ok s)) : Written s (payloadBits info file) := by
  have hlen : ∀ rbuf ∈ file, (info.table rbuf.toNat).codeLen ≤ 32 := by
    induction file using List.reverseRecOn generalizing s with
    | nil => simp
    | append_singleton file rbuf ih =>
        rw [putFile_concat] at h
        obtain ⟨s₁, h₁, h₂⟩ := Comp.ends_bind_ok_iff.1 h
        intro b hb
        rcases List.mem_append.1 hb with hb | hb
        · exact ih h₁ b hb
        · rw [List.mem_singleton.1 hb]
          exact codeLen_le h₂
  obtain ⟨s', hs', hw⟩ := putFile_ends file hlen
  obtain rfl : s = s' := by simpa using h.unique hs'
  exact hw

/-! ### The header -/

lemma mapM_eq_pure {α β : Type} {f : α → Comp Fault β} {g : α → β} (xs : List α)
    (h : ∀ x ∈ xs, f x = pure (g x)) : xs.mapM f = pure (xs.map g) := by
  induction xs with
  | nil => rfl
  | cons x xs ih =>
      rw [List.mapM_cons, h x (by simp), ih fun y hy => h y (by simp [hy])]
      simp

/-- The memory image of the first `n` entries of the table. -/
def tableBytes (mem : ℕ → ℕ → UInt8) (table : ℕ → HuffNode) (n : ℕ) : List UInt8 :=
  (List.range n).flatMap fun i => nodeBytes (mem i) (table i)

lemma hfMakeHuffHead_eq (mem : ℕ → ℕ → UInt8) (fileSize : ℕ) (h : info.root < allNum) :
    hfMakeHuffHead mem info fileSize =
      pure (headBytes info.root fileSize ++ tableBytes mem info.table (info.root + 1)) := by
  have hentry : ∀ i ∈ List.range (info.root + 1), (do
      return nodeBytes (mem i) (← info.entry i) : Comp Fault (List UInt8)) =
      pure (nodeBytes (mem i) (info.table i)) := by
    intro i hi
    have hlt : i < allNum := lt_of_lt_of_le (List.mem_range.1 hi) h
    simp [hlt]
  rw [hfMakeHuffHead, mapM_eq_pure _ hentry]
  simp [tableBytes, List.flatMap_def]

/-! ### The payload -/

lemma length_payloadBits (info : HuffInfo) (file : List UInt8) :
    (payloadBits info file).length =
      (file.map fun rbuf => (info.table rbuf.toNat).codeLen).sum := by
  simp [payloadBits, List.length_flatMap, emitted]

/-- The bits of a code word as `huff_compress` computes them. -/
lemma map_toNat_emitted (node : HuffNode) :
    (emitted node).map Bool.toNat =
      (List.range node.codeLen).map fun j => (node.code >>> j) &&& 1 := by
  rw [emitted, List.map_map]
  exact List.map_congr_left fun j _ => (bit_eq node.code j).symm

/-- **How the bits are packed.**  Whatever the table is, as long as its code words have at
most 16 bits, the second pass ends without a fault.  The payload takes one byte for eight bits,
rounded up, and read from the highest bit of every byte on it holds the bits of the code words
one after the other, each from its lowest one, and then zeros.  It is what `huff_compress`
writes behind the header. -/
theorem payload_packs (hlen : ∀ i < leafNum, (info.table i).codeLen ≤ 16) (file : List UInt8) :
    ∃ s, (putFile info file).Ends (.ok s) ∧
      s.flush.length = ((file.map fun rbuf => (info.table rbuf.toNat).codeLen).sum + 7) / 8 ∧
      (∃ k < 8, (s.flush.flatMap byteBits).map Bool.toNat =
        (file.flatMap fun rbuf => (List.range (info.table rbuf.toNat).codeLen).map fun j =>
          ((info.table rbuf.toNat).code >>> j) &&& 1) ++ List.replicate k 0) ∧
      ∀ mem info₁ head, (huffPrepare info₁ file).Ends (.ok info) →
        (hfMakeHuffHead mem info file.length).Ends (.ok head) →
        (huffCompress mem info₁ file).Ends (.ok (0, head ++ s.flush)) := by
  obtain ⟨s, hs, hw⟩ := putFile_ends file fun rbuf _ =>
    (hlen rbuf.toNat rbuf.toNat_lt).trans (by norm_num)
  obtain ⟨k, hk, hflush⟩ := hw.flush
  refine ⟨s, hs, ?_, ⟨k, hk, ?_⟩, fun mem info₁ head hprepare hhead => ?_⟩
  · rw [hw.length_flush, length_payloadBits]
  · rw [hflush, List.map_append, payloadBits, List.map_flatMap, List.map_replicate]
    simp only [map_toNat_emitted, Bool.toNat_false]
  · exact hprepare.bind (hhead.bind (hs.bind (Comp.ends_pure.2 rfl)))

/-- Two code words of three and of two bits, nine bits in all. -/
theorem payload_packs_nine : ∃ s, (putFile ⟨fun i => ⟨⟨0, 0, 0⟩, 1, 5, if i = 97 then 3 else 2⟩,
    ⟨id, id⟩, 0, 0⟩ [97, 98, 98, 98]).Ends (.ok s) ∧ s.flush.length = 2 := by
  have hlen : ∀ i < leafNum, ((⟨fun i => ⟨⟨0, 0, 0⟩, 1, 5, if i = 97 then 3 else 2⟩,
      ⟨id, id⟩, 0, 0⟩ : HuffInfo).table i).codeLen ≤ 16 := by
    intro i _
    dsimp only
    split <;> decide
  obtain ⟨s, hs, hlength, -⟩ := payload_packs hlen [97, 98, 98, 98]
  exact ⟨s, hs, hlength⟩

end Huffman

end DemoClass
