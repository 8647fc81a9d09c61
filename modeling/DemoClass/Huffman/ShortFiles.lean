import DemoClass.Huffman.Optimal
import DemoClass.Huffman.RoundTrip
import DemoClass.Lib.GreedyHeight
import Mathlib.Order.Bounds.Basic

/-!
# Files that are too short to be damaged

A code word of more than 16 bits does not fit into `code`.  The tree of the weights is that high
only for weights that grow like the Fibonacci numbers (`fib_codeTree_le`), so a file needs 4181
bytes for such a code word, and with that many it can have one (`roundTrips_isLeast`).
-/

namespace DemoClass

namespace Huffman

open ListSort

variable {w : ℕ → ℕ} {file : List UInt8}

/-- The bytes of a file, one by one and by their values. -/
lemma sum_bytes (file : List UInt8) (f : ℕ → ℕ) : (file.map fun b => f b.toNat).sum =
    ((usedLeaves (byteCount file)).map fun i => byteCount file i * f i).sum := by
  have hset : (usedLeaves (byteCount file)).toFinset = (file.map UInt8.toNat).toFinset := by
    ext i
    rw [List.mem_toFinset, List.mem_toFinset, mem_usedLeaves_byteCount]
  have hcount : ∀ i, (file.map UInt8.toNat).count i = byteCount file i := by
    intro i
    rw [List.count, List.countP_map, byteCount]
    exact List.countP_congr fun b _ => by simp
  calc (file.map fun b => f b.toNat).sum
      = ((file.map UInt8.toNat).map f).sum := by rw [List.map_map]; rfl
    _ = ∑ i ∈ (file.map UInt8.toNat).toFinset, byteCount file i * f i := by
        rw [Finset.sum_list_map_count]
        exact Finset.sum_congr rfl fun i _ => by rw [hcount, smul_eq_mul]
    _ = ((usedLeaves (byteCount file)).map fun i => byteCount file i * f i).sum := by
        rw [← hset, List.sum_toFinset _ (nodup_usedLeaves _)]

lemma totalWeight_byteCount (file : List UInt8) :
    totalWeight (byteCount file) = file.length := by
  have h := sum_bytes file fun _ => 1
  simp only [List.map_const', List.sum_replicate, smul_eq_mul, mul_one] at h
  rw [totalWeight, ← h]

/-- A tree of height `h` needs the weight `fib (h + 2)`. -/
lemma fib_codeTree_le (h2 : 2 ≤ (usedLeaves w).length) (ht : totalWeight w < 2 ^ 31) :
    Nat.fib ((codeTree w).height + 2) ≤ totalWeight w := by
  have hlt : ∀ i ∈ usedLeaves w, w i < 2 ^ 31 := fun i hi =>
    lt_of_le_of_lt (weight_le_totalWeight hi) ht
  have hlen : ((leafForest w).map Prod.snd).length = (usedLeaves w).length - 1 + 1 := by
    rw [List.length_map, length_leafForest]
    omega
  have ho : Ordered (Greedy.cmp weightDiff) ((leafForest w).map Prod.snd) := by
    rw [leafForest, List.map_map, Ordered, List.pairwise_map]
    refine (ordered_sortedLeaves hlt).imp fun {i j} hij => ?_
    rw [Greedy.cmp]
    exact hij
  have hweights : (Greedy.weights ((leafForest w).map Prod.snd)).sum = totalWeight w := by
    have hp := (sortedLeaves_perm w).map w
    rw [totalWeight, ← hp.sum_eq, leafForest, Greedy.weights, List.map_map, List.map_map]
    rfl
  have hsteep : Greedy.Steep w ((leafForest w).map Prod.snd) := by
    refine Greedy.steep_leaves fun z hz => ?_
    obtain ⟨p, hp, rfl⟩ := List.mem_map.1 hz
    obtain ⟨i, hi, rfl⟩ := List.mem_map.1 hp
    have hi := mem_usedLeaves.1 ((sortedLeaves_perm w).mem_iff.1 hi)
    exact ⟨i, rfl, Nat.pos_of_ne_zero hi.2⟩
  obtain ⟨z, hz, hweight, hfib⟩ :=
    Greedy.fib_height_le exact_weights hlen ho hsteep (hweights.symm ▸ ht)
  rw [hweight, hweights] at hfib
  rwa [codeTree, hz]

/-! ### A file with a code word of 17 bits -/

/-- Weights for which the tree that was joined last is always joined with the next leaf. -/
def fibWeight (i : ℕ) : ℕ := if i = 0 then 1 else if i < 18 then Nat.fib i else 0

/-- A file with these weights. -/
def fibFile : List UInt8 :=
  (List.range 18).flatMap fun i => List.replicate (fibWeight i) (UInt8.ofNat i)

lemma byteCount_fibFile (i : ℕ) : byteCount fibFile i = fibWeight i := by
  have hone : ∀ j < 18, (List.replicate (fibWeight j) (UInt8.ofNat j)).countP
      (fun b => decide (b.toNat = i)) = if j = i then fibWeight i else 0 := by
    intro j hj
    have hbyte : (UInt8.ofNat j).toNat = j := by
      rw [UInt8.toNat_ofNat']
      exact Nat.mod_eq_of_lt (by omega)
    rw [List.countP_replicate, hbyte]
    by_cases hji : j = i
    · simp [hji]
    · simp [hji]
  have hsum : byteCount fibFile i =
      ((List.range 18).map fun j => if j = i then fibWeight i else 0).sum := by
    rw [byteCount, fibFile, List.countP_flatMap]
    exact congrArg List.sum (List.map_congr_left fun j hj => hone j (List.mem_range.1 hj))
  rw [hsum, ← List.sum_toFinset _ List.nodup_range, List.toFinset_range, Finset.sum_ite_eq']
  by_cases hi : i < 18
  · rw [if_pos (Finset.mem_range.2 hi)]
  · rw [if_neg fun hmem => hi (Finset.mem_range.1 hmem), fibWeight, if_neg (by omega), if_neg hi]

lemma codeTree_fibWeight : (codeTree fibWeight).height = 17 := by decide +kernel

/-- **Short files survive.**  The least length of a file with two different bytes that compressing
and decompressing does not give back is 4181. -/
theorem roundTrips_isLeast (mem mem' : ℕ → ℕ → UInt8) (junk : List UInt8)
    (info info' : HuffInfo) :
    IsLeast {n | ∃ file : List UInt8, file.length = n ∧ (∃ a ∈ file, ∃ b ∈ file, a ≠ b) ∧
      ¬ RoundTrips mem mem' junk info info' file} 4181 := by
  have hwidth : ∀ n < 4182, n < sizeMod := fun n hn => hn.trans (by decide)
  constructor
  · have hfun : byteCount fibFile = fibWeight := funext byteCount_fibFile
    have hlen : fibFile.length = 4181 := by
      rw [← totalWeight_byteCount, hfun]
      decide +kernel
    have h2 : 2 ≤ (usedLeaves (byteCount fibFile)).length := by
      rw [hfun]
      decide +kernel
    refine ⟨fibFile, hlen, two_le_usedLeaves_iff.1 h2, ?_⟩
    rw [roundTrips_of_two mem mem' junk info info' (hwidth _ (by rw [hlen]; decide)) h2, hfun,
      codeTree_fibWeight]
    decide
  · rintro n ⟨file, rfl, hbytes, hfail⟩
    by_contra hlt
    have h2 := two_le_usedLeaves_iff.2 hbytes
    have hlen : file.length < 4181 := not_le.1 hlt
    refine hfail ((roundTrips_of_two mem mem' junk info info' (hwidth _ (by omega)) h2).2 ?_)
    by_contra hheight
    have hfib := fib_codeTree_le h2 (by rw [totalWeight_byteCount]; omega)
    rw [totalWeight_byteCount] at hfib
    have hmono : Nat.fib 19 ≤ Nat.fib ((codeTree (byteCount file)).height + 2) :=
      Nat.fib_mono (by omega)
    have hvalue : Nat.fib 19 = 4181 := by decide +kernel
    omega

end Huffman

end DemoClass
