import Mathlib.Algebra.Order.Ring.Nat
import Mathlib.Data.List.TakeWhile
import Mathlib.Data.Int.Notation

/-!
# C strings in memory

A piece of memory is the list of the characters from an address to the end of the
array it is in, so that an address further on is a `drop`.  A function that runs off
the end of the array has no result.  `strtol` and `decimal` (`%d`) are inverse to
each other: `atoi_decimal`.
-/

namespace DemoClass

namespace CString

def nul : Char := Char.ofNat 0

/-- The string that starts at the front of the memory. -/
def str (mem : List Char) : Option (List Char) :=
  if nul ∈ mem then some (mem.takeWhile (· ≠ nul)) else none

/-- The characters of a string and its NUL. -/
def terminated (s : List Char) : List Char := s ++ [nul]

/-- Write characters to the front of the memory. -/
def write (cs mem : List Char) : List Char := cs ++ mem.drop cs.length

/-- A string, as `scanf` reads it. -/
structure Word where
  chars : List Char
  nul_notMem : nul ∉ chars

/-- What `snprintf` leaves of the text `s` in an array of `n` characters. -/
def snprintf (n : ℕ) (s mem : List Char) : List Char := write (terminated (s.take (n - 1))) mem

/-- The `n` characters that `strncpy` writes. -/
def strncpy (n : ℕ) (mem : List Char) : Option (List Char) :=
  let s := (mem.take n).takeWhile (· ≠ nul)
  if nul ∈ mem.take n ∨ n ≤ mem.length then some (s ++ List.replicate (n - s.length) nul) else none

/-- `isspace` -/
def isSpace (c : Char) : Bool := c = ' ' ∨ (9 ≤ c.toNat ∧ c.toNat ≤ 13)

/-- `%d` -/
def decimal : ℤ → List Char
  | .ofNat n => Nat.toDigits 10 n
  | .negSucc n => '-' :: Nat.toDigits 10 (n + 1)

/-- The digits at the front of the memory, read as a number. -/
def readDigits (mem : List Char) : Option ℕ :=
  if mem.all Char.isDigit then none else some (Nat.ofDigitChars 10 (mem.takeWhile Char.isDigit) 0)

/-- `strtol` to the base 10, which stays within the bounds of a `long`. -/
def strtol (mem : List Char) : Option ℤ :=
  match mem.dropWhile isSpace with
  | [] => none
  | c :: rest =>
    if c = '-' then (readDigits rest).map fun n : ℕ => max (-9223372036854775808) (-(n : ℤ))
    else if c = '+' then (readDigits rest).map fun n : ℕ => min 9223372036854775807 (n : ℤ)
    else (readDigits (c :: rest)).map fun n : ℕ => min 9223372036854775807 (n : ℤ)

/-- The conversion of a `long` to an `int`. -/
def toInt (n : ℤ) : ℤ := n.bmod 4294967296

/-- `atoi` -/
def atoi (mem : List Char) : Option ℤ := (strtol mem).map toInt

variable {c : Char} {n : ℕ} {mem : List Char}

lemma length_write {s : List Char} (h : s.length ≤ mem.length) :
    (write s mem).length = mem.length := by
  rw [write, List.length_append, List.length_drop]
  omega

/-- An array of characters. -/
structure CharArray (n : ℕ) where
  chars : List Char
  length_eq : chars.length = n
deriving DecidableEq

/-- `memmove` of a string without its NUL to the front of an array. -/
def CharArray.memmove (a : CharArray n) (s : List Char) : Option (CharArray n) :=
  if h : s.length ≤ n then
    some ⟨write s a.chars, (length_write (h.trans_eq a.length_eq.symm)).trans a.length_eq⟩
  else none

lemma CharArray.exists_memmove (a : CharArray n) {s : List Char} (h : s.length ≤ n) :
    ∃ a', a.memmove s = some a' := ⟨_, dif_pos h⟩

lemma CharArray.chars_of_memmove {a a' : CharArray n} {s : List Char}
    (h : a.memmove s = some a') : a'.chars = write s a.chars := by
  rw [memmove] at h
  split at h
  · obtain rfl := Option.some.inj h
    rfl
  · cases h

lemma decimal_natCast (n : ℕ) : decimal n = Nat.toDigits 10 n := rfl

lemma decimal_of_lt (hn : n < 10) : decimal (n : ℤ) = [Nat.digitChar n] :=
  Nat.toDigits_of_lt_base hn

/-- The last digit of a longer number comes after its other digits. -/
lemma decimal_of_le (hn : 10 ≤ n) :
    decimal (n : ℤ) = decimal ((n / 10 : ℕ) : ℤ) ++ decimal ((n % 10 : ℕ) : ℤ) := by
  rw [decimal_of_lt (Nat.mod_lt n (by decide))]
  exact Nat.toDigits_of_base_le (by decide) hn

/-- The characters before a NUL that is the first one. -/
lemma takeWhile_ne_nul {s : List Char} (hs : nul ∉ s) : s.takeWhile (· ≠ nul) = s := by
  refine List.takeWhile_eq_self_iff.2 fun c hc => ?_
  exact decide_eq_true fun he => hs (he ▸ hc)

/-- What stands before the first separator, and what stands behind it. -/
lemma append_cons_inj {u v s t : List Char} (hu : c ∉ u) (hv : c ∉ v)
    (h : u ++ c :: s = v ++ c :: t) : u = v ∧ s = t := by
  induction u generalizing v with
  | nil =>
      cases v with
      | nil => exact ⟨rfl, (List.cons.inj h).2⟩
      | cons d v => exact absurd (List.cons.inj h).1 fun he => hv (he ▸ List.mem_cons_self)
  | cons d u ih =>
      cases v with
      | nil => exact absurd (List.cons.inj h).1.symm fun he => hu (he ▸ List.mem_cons_self)
      | cons e v =>
          obtain ⟨rfl, htail⟩ := List.cons.inj h
          obtain ⟨rfl, hst⟩ := ih (fun hm => hu (List.mem_cons_of_mem d hm))
            (fun hm => hv (List.mem_cons_of_mem d hm)) htail
          exact ⟨rfl, hst⟩

/-- Fields of which each is terminated by the same character, and what follows them. -/
lemma flatMap_terminated_inj {us vs : List (List Char)} {s t : List Char}
    (hu : ∀ u ∈ us, c ∉ u) (hv : ∀ v ∈ vs, c ∉ v) (hlen : us.length = vs.length)
    (h : us.flatMap (· ++ [c]) ++ s = vs.flatMap (· ++ [c]) ++ t) : us = vs ∧ s = t := by
  induction us generalizing vs with
  | nil =>
      obtain rfl := List.length_eq_zero_iff.1 hlen.symm
      exact ⟨rfl, h⟩
  | cons u us ih =>
      obtain ⟨v, vs, rfl⟩ := List.exists_cons_of_length_eq_add_one hlen.symm
      simp only [List.flatMap_cons, List.append_assoc, List.singleton_append] at h
      obtain ⟨rfl, htail⟩ := append_cons_inj (hu u (by simp)) (hv v (by simp)) h
      obtain ⟨rfl, hst⟩ := ih (fun w hw => hu w (by simp [hw])) (fun w hw => hv w (by simp [hw]))
        (by simpa using hlen) htail
      exact ⟨rfl, hst⟩

/-- A string ends at its NUL. -/
lemma takeWhile_append_nul (s mem : List Char) :
    (s ++ nul :: mem).takeWhile (· ≠ nul) = s.takeWhile (· ≠ nul) := by
  induction s with
  | nil => simp
  | cons d s ih =>
      by_cases hd : d = nul
      · simp [hd]
      · simpa [hd] using ih

/-- The memory behind a string starts with its NUL. -/
lemma exists_takeWhile_append (h : nul ∈ mem) :
    ∃ rest, mem = mem.takeWhile (· ≠ nul) ++ nul :: rest := by
  induction mem with
  | nil => cases h
  | cons c mem ih =>
      by_cases hc : c = nul
      · exact ⟨mem, by simp [hc]⟩
      · obtain ⟨rest, hrest⟩ := ih (List.mem_of_ne_of_mem (Ne.symm hc) h)
        refine ⟨rest, ?_⟩
        rw [List.takeWhile_cons_of_pos (by simp [hc]), List.cons_append, ← hrest]

lemma str_append_nul {s : List Char} (hs : nul ∉ s) (mem : List Char) :
    str (s ++ nul :: mem) = some s := by
  rw [str, if_pos (by simp), takeWhile_append_nul, takeWhile_ne_nul hs]

lemma length_lt_of_str {s : List Char} (h : str mem = some s) : s.length < mem.length := by
  rw [str] at h
  split at h
  · next hmem =>
    obtain rfl := Option.some.inj h
    obtain ⟨rest, hrest⟩ := exists_takeWhile_append hmem
    have hlen := congrArg List.length hrest
    rw [List.length_append, List.length_cons] at hlen
    omega
  · cases h

/-- A string that is written without its NUL is read again when a NUL stands behind it. -/
lemma str_write_iff {s : List Char} (hs : nul ∉ s) (hlen : s.length < mem.length) :
    str (write s mem) = some s ↔ mem[s.length]? = some nul := by
  have hdrop : mem.drop s.length = mem[s.length] :: mem.drop (s.length + 1) :=
    List.drop_eq_getElem_cons hlen
  rw [write, hdrop, List.getElem?_eq_getElem hlen, Option.some.injEq]
  constructor
  · intro h
    by_contra hc
    rw [str] at h
    split at h
    · have hpos : ∀ c ∈ s, decide (c ≠ nul) = true := fun c hmem =>
        decide_eq_true fun he => hs (he ▸ hmem)
      rw [List.takeWhile_append_of_pos hpos, List.takeWhile_cons_of_pos (by simp [hc])] at h
      have hle := congrArg List.length (Option.some.inj h)
      rw [List.length_append, List.length_cons] at hle
      omega
    · cases h
  · intro hc
    rw [hc]
    exact str_append_nul hs _

/-- Writing changes nothing when the characters are there. -/
lemma write_eq_self_iff {s : List Char} : write s mem = mem ↔ s <+: mem :=
  List.prefix_iff_eq_append.symm

/-- A shorter string is copied with its NUL, and more of them. -/
lemma strncpy_append_nul {s : List Char} (hs : nul ∉ s) (hn : s.length < n) (mem : List Char) :
    strncpy n (s ++ nul :: mem) = some (s ++ List.replicate (n - s.length) nul) := by
  obtain ⟨k, hk⟩ : ∃ k, n - s.length = k + 1 := ⟨n - s.length - 1, by omega⟩
  have htake : (s ++ nul :: mem).take n = s ++ nul :: mem.take k := by
    rw [List.take_append, List.take_of_length_le hn.le, hk, List.take_succ_cons]
  have hstr : (s ++ nul :: mem.take k).takeWhile (· ≠ nul) = s := by
    rw [takeWhile_append_nul, takeWhile_ne_nul hs]
  rw [strncpy, htake, hstr, if_pos (Or.inl (by simp))]

/-- A longer string is copied without its NUL. -/
lemma strncpy_append_of_le {s : List Char} (hs : nul ∉ s) (hn : n ≤ s.length) (mem : List Char) :
    strncpy n (s ++ mem) = some (s.take n) := by
  have htake : (s ++ mem).take n = s.take n := List.take_append_of_le_length hn
  have hstr : (s.take n).takeWhile (· ≠ nul) = s.take n :=
    takeWhile_ne_nul fun h => hs (List.mem_of_mem_take h)
  have hlen : n ≤ (s ++ mem).length := by
    rw [List.length_append]
    omega
  rw [strncpy, htake, hstr, if_pos (Or.inr hlen), List.length_take_of_le hn, Nat.sub_self,
    List.replicate_zero, List.append_nil]

/-- What is printed is the text, up to its first NUL and to the size of the array. -/
lemma takeWhile_snprintf (n : ℕ) (s mem : List Char) :
    (snprintf n s mem).takeWhile (· ≠ nul) = (s.take (n - 1)).takeWhile (· ≠ nul) := by
  rw [snprintf, write, terminated, List.append_assoc]
  exact takeWhile_append_nul _ _

lemma all_isDigit_toDigits (n : ℕ) : (Nat.toDigits 10 n).all Char.isDigit = true :=
  List.all_eq_true.2 fun _ hc => Nat.isDigit_of_mem_toDigits (by decide) (by decide) hc

/-- The digits of a number are read up to the first character that is no digit. -/
lemma readDigits_toDigits (n : ℕ) (hc : c.isDigit = false) (mem : List Char) :
    readDigits (Nat.toDigits 10 n ++ c :: mem) = some n := by
  have hall := all_isDigit_toDigits n
  have htake : (Nat.toDigits 10 n ++ c :: mem).takeWhile Char.isDigit = Nat.toDigits 10 n := by
    rw [List.takeWhile_append_of_pos (List.all_eq_true.1 hall),
      List.takeWhile_cons_of_neg (by simp [hc]),
      List.append_nil]
  rw [readDigits, if_neg (by simp [hc]), htake, Nat.ofDigitChars_ten_toDigits]

lemma nul_notMem_decimal (n : ℕ) : nul ∉ decimal (n : ℤ) := by
  intro h
  have hdig := List.all_eq_true.1 (all_isDigit_toDigits n) nul h
  exact absurd hdig (by decide)

/-- A number below `10 ^ k` has at most `k` digits. -/
lemma length_decimal_le {k : ℕ} (hk : 0 < k) (hn : n < 10 ^ k) : (decimal (n : ℤ)).length ≤ k :=
  (Nat.length_toDigits_le_iff (by decide) hk).2 hn

lemma length_decimal_pos (n : ℕ) : 0 < (decimal (n : ℤ)).length := Nat.length_toDigits_pos

lemma strtol_toDigits (hn : n < 9223372036854775808) (hc : c.isDigit = false) (mem : List Char) :
    strtol (Nat.toDigits 10 n ++ c :: mem) = some (n : ℤ) := by
  have hread := readDigits_toDigits n hc mem
  obtain ⟨d, ds, hd⟩ := List.exists_cons_of_ne_nil (Nat.toDigits_ne_nil (b := 10) (n := n))
  have hdig : d.isDigit = true :=
    Nat.isDigit_of_mem_toDigits (by decide) (by decide) (hd ▸ List.mem_cons_self)
  -- a digit is neither a space nor a sign
  have hspace : isSpace d = false := by
    have hd48 : 48 ≤ d.toNat := by
      have h := (Bool.and_eq_true_iff.1 hdig).1
      simpa [UInt32.le_iff_toNat_le] using h
    have hne : d ≠ ' ' := by
      rintro rfl
      simp at hd48
    simp only [isSpace, decide_eq_false_iff_not, not_or, not_and]
    exact ⟨hne, by omega⟩
  have hminus : d ≠ '-' := by
    rintro rfl
    simp [Char.isDigit] at hdig
  have hplus : d ≠ '+' := by
    rintro rfl
    simp [Char.isDigit] at hdig
  rw [hd] at hread ⊢
  rw [strtol, List.cons_append, List.dropWhile_cons_of_neg (by simp [hspace])]
  simp only [if_neg hminus, if_neg hplus]
  rw [← List.cons_append, hread, Option.map_some]
  congr 1
  omega

/-- A number that was printed is read again. -/
lemma atoi_decimal (hn : n < 2147483648) (hc : c.isDigit = false) (mem : List Char) :
    atoi (decimal n ++ c :: mem) = some (n : ℤ) := by
  rw [decimal_natCast, atoi, strtol_toDigits (by omega) hc, Option.map_some, toInt,
    Int.bmod_eq_of_le_mul_two (by omega) (by omega)]

end CString

end DemoClass
