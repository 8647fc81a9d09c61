import Mathlib.Data.Nat.Bitwise
import Mathlib.Data.List.Induction
import Mathlib.Tactic.Ring

/-!
# Bytes of a number and bits of a byte

Numbers are stored in memory with their lowest byte first (`leBytes`, `leValue`).  A
bit stream fills every byte from its highest bit on: `byteBits` are the bits of a byte
in this order, `msbValue` is the number that a list of bits spells.
-/

namespace DemoClass

/-- The lowest `k` bytes of `v`, the lowest first. -/
def leBytes : ℕ → ℕ → List UInt8
  | 0, _ => []
  | k + 1, v => UInt8.ofNat v :: leBytes k (v / 256)

/-- The number stored in `bs`. -/
def leValue : List UInt8 → ℕ
  | [] => 0
  | b :: bs => b.toNat + 256 * leValue bs

@[simp] lemma length_leBytes (k v : ℕ) : (leBytes k v).length = k := by
  induction k generalizing v with
  | zero => rfl
  | succ k ih => simp [leBytes, ih]

lemma leValue_leBytes {k v : ℕ} (h : v < 256 ^ k) : leValue (leBytes k v) = v := by
  induction k generalizing v with
  | zero =>
      have : v = 0 := by simpa using h
      simp [leBytes, leValue, this]
  | succ k ih =>
      have hdiv : v / 256 < 256 ^ k := by
        rw [Nat.div_lt_iff_lt_mul (by norm_num), ← Nat.pow_succ]
        exact h
      rw [leBytes, leValue, ih hdiv, UInt8.toNat_ofNat']
      exact Nat.mod_add_div v 256

lemma leValue_lt (bs : List UInt8) : leValue bs < 256 ^ bs.length := by
  induction bs with
  | nil => simp [leValue]
  | cons b bs ih =>
      have hb : b.toNat < 256 := b.toNat_lt
      rw [leValue, List.length_cons, Nat.pow_succ]
      omega

/-- The number that `bs` spells, the highest bit first. -/
def msbValue (bs : List Bool) : ℕ := bs.foldl (fun n b => 2 * n + b.toNat) 0

/-- The bits of a byte, the highest first. -/
def byteBits (b : UInt8) : List Bool := (List.range 8).map fun i => b.toNat.testBit (7 - i)

@[simp] lemma length_byteBits (b : UInt8) : (byteBits b).length = 8 := by simp [byteBits]

lemma length_flatMap_byteBits (bs : List UInt8) :
    (bs.flatMap byteBits).length = 8 * bs.length := by
  induction bs with
  | nil => rfl
  | cons b bs ih =>
      rw [List.flatMap_cons, List.length_append, length_byteBits, ih, List.length_cons]
      omega

@[simp] lemma msbValue_nil : msbValue [] = 0 := rfl

lemma msbValue_concat (bs : List Bool) (b : Bool) :
    msbValue (bs ++ [b]) = 2 * msbValue bs + b.toNat := by
  simp [msbValue]

lemma msbValue_lt (bs : List Bool) : msbValue bs < 2 ^ bs.length := by
  induction bs using List.reverseRecOn with
  | nil => simp
  | append_singleton bs b ih =>
      have hb := b.toNat_lt
      rw [msbValue_concat, List.length_append, List.length_singleton, Nat.pow_succ]
      omega

lemma msbValue_append_replicate (bs : List Bool) (k : ℕ) :
    msbValue (bs ++ List.replicate k false) = msbValue bs * 2 ^ k := by
  induction k with
  | zero => simp
  | succ k ih =>
      rw [List.replicate_succ', ← List.append_assoc, msbValue_concat, ih, Nat.pow_succ]
      simp only [Bool.toNat_false]
      ring

lemma testBit_msbValue (bs : List Bool) (j : ℕ) :
    (msbValue bs).testBit j = bs.reverse.getD j false := by
  induction bs using List.reverseRecOn generalizing j with
  | nil => simp
  | append_singleton bs b ih =>
      rw [msbValue_concat, List.reverse_append, List.reverse_singleton, List.singleton_append]
      cases j with
      | zero => cases b <;> simp
      | succ j =>
          have hdiv : (2 * msbValue bs + b.toNat) / 2 = msbValue bs := by
            have := b.toNat_lt
            omega
          rw [Nat.testBit_succ, hdiv, ih, List.getD_cons_succ]

/-- Eight bits are the bits of the byte that they spell. -/
lemma byteBits_msbValue {bs : List Bool} (h : bs.length = 8) :
    byteBits (UInt8.ofNat (msbValue bs)) = bs := by
  have hlt : msbValue bs < 2 ^ 8 := h ▸ msbValue_lt bs
  refine List.ext_getElem (by simp [h]) fun i hi hi' => ?_
  have hrev : 7 - i < bs.reverse.length := by
    rw [List.length_reverse]
    omega
  have hidx : bs.length - 1 - (7 - i) = i := by omega
  simp only [byteBits, List.getElem_map, List.getElem_range, UInt8.toNat_ofNat',
    Nat.mod_eq_of_lt hlt, testBit_msbValue]
  rw [List.getD_eq_getElem _ _ hrev, List.getElem_reverse]
  simp only [hidx]

/-- Bits that fill whole bytes are the bits of these bytes. -/
lemma exists_flatMap_byteBits {n : ℕ} {bs : List Bool} (h : bs.length = 8 * n) :
    ∃ bytes : List UInt8, bytes.flatMap byteBits = bs := by
  induction n generalizing bs with
  | zero =>
      obtain rfl : bs = [] := List.length_eq_zero_iff.1 (by omega)
      exact ⟨[], rfl⟩
  | succ n ih =>
      have hfirst : (bs.take 8).length = 8 := by
        rw [List.length_take]
        omega
      have hrest : (bs.drop 8).length = 8 * n := by
        rw [List.length_drop]
        omega
      obtain ⟨bytes, hbytes⟩ := ih hrest
      refine ⟨UInt8.ofNat (msbValue (bs.take 8)) :: bytes, ?_⟩
      rw [List.flatMap_cons, byteBits_msbValue hfirst, hbytes, List.take_append_drop]

end DemoClass
