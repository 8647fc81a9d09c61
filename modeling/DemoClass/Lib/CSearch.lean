import DemoClass.Lib.CString

/-!
# Searching in C strings

`firstOcc` is the first place where a list occurs in another.  It stays the first place
when more is put behind the list (`firstOcc_append`).  `strstr` and `strchr` search the
string that starts at the front of the memory.
-/

namespace DemoClass

namespace CString

/-! ### The first occurrence -/

section FirstOcc

variable {α : Type} [DecidableEq α] {pat s : List α} {i : ℕ}

/-- The index at which `pat` occurs first. -/
def firstOcc (pat : List α) : List α → Option ℕ
  | [] => if pat = [] then some 0 else none
  | c :: s => if pat <+: c :: s then some 0 else (firstOcc pat s).map (· + 1)

lemma firstOcc_of_starts (h : pat <+: s) : firstOcc pat s = some 0 := by
  cases s with
  | nil => exact if_pos (List.prefix_nil.1 h)
  | cons c s => exact if_pos h

lemma firstOcc_split (h : firstOcc pat s = some i) :
    ∃ pre post, s = pre ++ pat ++ post ∧ pre.length = i := by
  induction s generalizing i with
  | nil =>
      obtain ⟨rfl, rfl⟩ : pat = [] ∧ 0 = i := by simpa [firstOcc] using h
      exact ⟨[], [], rfl, rfl⟩
  | cons c s ih =>
      by_cases hpre : pat <+: c :: s
      · obtain ⟨post, hpost⟩ := hpre
        obtain rfl : 0 = i := by simpa [firstOcc, ← hpost] using h
        exact ⟨[], post, hpost.symm, rfl⟩
      · rw [firstOcc, if_neg hpre] at h
        obtain ⟨j, hj, rfl⟩ := Option.map_eq_some_iff.1 h
        obtain ⟨pre, post, rfl, rfl⟩ := ih hj
        exact ⟨c :: pre, post, rfl, rfl⟩

/-- What follows the list does not matter for what occurs in it. -/
lemma firstOcc_append (h : firstOcc pat s = some i) (t : List α) :
    firstOcc pat (s ++ t) = some i := by
  induction s generalizing i with
  | nil =>
      obtain ⟨rfl, rfl⟩ : pat = [] ∧ 0 = i := by simpa [firstOcc] using h
      exact firstOcc_of_starts List.nil_prefix
  | cons c s ih =>
      by_cases hpre : pat <+: c :: s
      · rw [firstOcc_of_starts hpre] at h
        rw [firstOcc_of_starts (hpre.trans (List.prefix_append _ t)), h]
      · rw [firstOcc, if_neg hpre] at h
        obtain ⟨j, hj, rfl⟩ := Option.map_eq_some_iff.1 h
        have hlen : pat.length ≤ (c :: s).length := by
          obtain ⟨pre, post, rfl, -⟩ := firstOcc_split hj
          simp only [List.length_cons, List.length_append]
          omega
        have hpre' : ¬ pat <+: c :: (s ++ t) := fun hp =>
          hpre (List.prefix_of_prefix_length_le hp (List.prefix_append (c :: s) t) hlen)
        rw [List.cons_append, firstOcc, if_neg hpre', ih hj, Option.map_some]

/-- What occurs somewhere occurs there or earlier for the first time. -/
lemma exists_firstOcc (pat pre post : List α) :
    ∃ i, firstOcc pat (pre ++ pat ++ post) = some i ∧ i ≤ pre.length := by
  induction pre with
  | nil => exact ⟨0, firstOcc_of_starts (List.prefix_append pat post), le_rfl⟩
  | cons c pre ih =>
      obtain ⟨i, hi, hle⟩ := ih
      by_cases hpre : pat <+: c :: pre ++ pat ++ post
      · exact ⟨0, firstOcc_of_starts hpre, Nat.zero_le _⟩
      · refine ⟨i + 1, ?_, Nat.succ_le_succ hle⟩
        rw [List.cons_append, List.cons_append] at hpre ⊢
        rw [firstOcc, if_neg hpre, hi, Option.map_some]

end FirstOcc

/-! ### Strings -/

/-- `strstr`, with the index of the place it points to. -/
def strstr (mem pat : List Char) : Option (Option ℕ) := (str mem).map (firstOcc pat)

/-- `strchr` of another character than NUL, with the index of the place it points to. -/
def strchr (mem : List Char) (c : Char) : Option (Option ℕ) := (str mem).map (·.idxOf? c)

/-- The place of a character splits the list. -/
lemma idxOf?_split {c : Char} {n : ℕ} {s : List Char} (h : s.idxOf? c = some n) :
    ∃ a b, s = a ++ c :: b ∧ a.length = n := by
  obtain ⟨hn, hc, -⟩ := List.idxOf?_eq_some_iff.1 h
  refine ⟨s.take n, s.drop (n + 1), ?_, List.length_take_of_le hn.le⟩
  rw [← hc, List.getElem_cons_drop, List.take_append_drop]

/-- The place of a character in the first part is its place in the whole. -/
lemma idxOf?_append {c : Char} {n : ℕ} {s : List Char} (h : s.idxOf? c = some n) (t : List Char) :
    (s ++ t).idxOf? c = some n := by
  rw [List.idxOf?] at h ⊢
  rw [List.findIdx?_append, h, Option.some_or]

end CString

end DemoClass
