import DemoClass.Lib.Josephus

/-!
# The survivor of the Josephus process

When the first member has left, the process goes on as that of a circle with one member less, which
begins at the next one.  So the place of the survivor can be computed without the circle
(`getLast?_josephus`).
-/

namespace DemoClass

variable {α : Type}

/-- The place of the survivor in a circle of `n`, counted from 0 on. -/
def survivor (step : ℕ) : ℕ → ℕ
  | 0 => 0
  | n + 1 => (survivor step n + step) % (n + 1)

lemma survivor_lt (step : ℕ) {n : ℕ} (hn : 0 < n) : survivor step n < n := by
  cases n with
  | zero => omega
  | succ n => exact Nat.mod_lt _ (Nat.succ_pos n)

/-- **The survivor.** -/
theorem getLast?_josephus {step : ℕ} (hstep : 1 ≤ step) (xs : List α) (hne : xs ≠ []) :
    (josephus step xs).getLast? = xs[survivor step xs.length]? := by
  induction hn : xs.length generalizing xs with
  | zero => exact absurd (List.length_eq_zero_iff.1 hn) hne
  | succ n ih =>
      rcases hrot : xs.rotate (step - 1 - 0) with _ | ⟨y, ys⟩
      · exact absurd (List.rotate_eq_nil_iff.1 hrot) hne
      · have hlen : ys.length = n := by
          have h := congrArg List.length hrot
          rw [List.length_rotate, List.length_cons, hn] at h
          omega
        rw [josephus, josephusFrom_of_rotate hrot]
        cases n with
        | zero =>
            -- the last one is the only one
            obtain rfl : ys = [] := List.length_eq_zero_iff.1 hlen
            obtain ⟨x, rfl⟩ := List.length_eq_one_iff.1 hn
            rw [List.rotate_singleton] at hrot
            obtain rfl : x = y := by simpa using hrot
            rw [josephusFrom_of_nil, survivor, Nat.mod_one]
            rfl
        | succ n =>
            have hys : ys ≠ [] := List.ne_nil_of_length_pos (by omega)
            have hlt : survivor step (n + 1) < n + 1 := survivor_lt step (Nat.succ_pos n)
            have hlast : (josephusFrom step 0 ys).getLast? = ys[survivor step (n + 1)]? :=
              ih ys hys hlen
            have hsome : ys[survivor step (n + 1)]? = some ys[survivor step (n + 1)] :=
              List.getElem?_eq_getElem (by omega)
            calc (y :: josephusFrom step 0 ys).getLast?
                = some ys[survivor step (n + 1)] := by
                  rw [List.getLast?_cons, hlast, hsome]
                  rfl
              _ = (y :: ys)[survivor step (n + 1) + 1]? := by
                  rw [List.getElem?_cons_succ, hsome]
              _ = xs[(survivor step (n + 1) + 1 + (step - 1 - 0)) % (n + 2)]? := by
                  rw [← hrot, List.getElem?_rotate (by omega), hn]
              _ = xs[(survivor step (n + 1) + step) % (n + 2)]? := by
                  rw [show survivor step (n + 1) + 1 + (step - 1 - 0) =
                    survivor step (n + 1) + step by omega]

end DemoClass
