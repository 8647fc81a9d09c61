import DemoClass.Calc.Calls

/-!
# Divisions that trap

A division by zero and the division of the least `int` by -1 trap, and so do the
remainders.  `do_stack` tests only the divisor of `/`, and reports to its caller; the
loop of `bracket_handle` goes on all the same.
-/

namespace DemoClass

namespace Calc

variable {ovf : ℤ → Except Fault CInt} {s : List Char} {info : CalcInfo}

/-- `do_stack` finds a division by zero, or of the least `int` by -1. -/
def BadDivision (info : CalcInfo) : Prop :=
  ∃ b a num c opr, info.num = b :: a :: num ∧ info.opr = c :: opr ∧ (c = '/' ∨ c = '%') ∧
    (b.1 = 0 ∨ a.1 = -2147483648 ∧ b.1 = -1)

/-- No division traps in a run of `calc_main`, and each one that would is an error of
`do_stack` and of `calc_main`. -/
def DividesSafely (ovf : ℤ → Except Fault CInt) (s : List Char) : Prop :=
  ((∀ n, ovf n ≠ .error .divide) → ¬ (calcMain ovf calcInit s).Ends (.error .divide)) ∧
    ∀ caller info, Calls ovf s caller info → BadDivision info →
      caller.Fails ovf info ∧ ErrorExit ovf s

/-- The only quotient that does not fit. -/
lemma not_inInt_tdiv_iff {a b : ℤ} (ha : InInt a) (hb : b ≠ 0) :
    ¬ InInt (a.tdiv b) ↔ a = -2147483648 ∧ b = -1 := by
  obtain ⟨hlow, hhigh⟩ := ha
  constructor
  · intro h
    by_contra hne
    refine h ?_
    by_cases hminus : b = -1
    · subst hminus
      have hq : a.tdiv (-1) = -a := by rw [Int.tdiv_neg, Int.tdiv_one]
      rw [hq]
      exact ⟨by omega, by omega⟩
    · by_cases hone : b = 1
      · subst hone
        rw [Int.tdiv_one]
        exact ⟨hlow, hhigh⟩
      · have hb' : 2 ≤ b.natAbs := by omega
        -- a divisor other than 1 and -1 halves the size at least
        have hq : (a.tdiv b).natAbs = a.natAbs / b.natAbs := Int.natAbs_tdiv a b
        have hle : a.natAbs / b.natAbs ≤ a.natAbs / 2 := Nat.div_le_div_left hb' (by omega)
        exact ⟨by omega, by omega⟩
  · rintro ⟨rfl, rfl⟩
    decide

/-- An operation that traps is a division by zero or of the least `int` by -1. -/
lemma apply_traps {c : Char} {a b : CInt} (hovf : ∀ n, ovf n ≠ .error .divide)
    (h : (apply ovf c a b).Ends (.error .divide)) :
    (c = '/' ∨ c = '%') ∧ (b.1 = 0 ∨ a.1 = -2147483648 ∧ b.1 = -1) ∧ ¬ (c = '/' ∧ b.1 = 0) := by
  rcases apply_cases h with ⟨v, hr⟩ | ⟨n, e, hn, hr⟩ | ⟨-, hr⟩ | ⟨hc, htrap, -⟩ | ⟨-, hr⟩
  · cases hr
  · cases hr
    exact absurd hn (hovf n)
  · cases hr
  · refine ⟨hc.imp_left And.left, ?_, fun hz => ?_⟩
    · by_cases hzero : b.1 = 0
      · exact Or.inl hzero
      · exact Or.inr ((not_inInt_tdiv_iff a.2 hzero).1 (htrap.resolve_left hzero))
    · rcases hc with ⟨-, hzero⟩ | rfl
      · exact hzero hz.2
      · simp at hz
  · cases hr

/-- **When no division traps.**  `calc_main` divides safely exactly if every bad division
is one by zero with `/`, and is not made by `bracket_handle`. -/
theorem dividesSafely_iff (ovf : ℤ → Except Fault CInt) (s : List Char) :
    DividesSafely ovf s ↔ ∀ caller info, Calls ovf s caller info → BadDivision info →
      caller ≠ .bracket ∧ info.opr.head? = some '/' ∧ ∃ b ∈ info.num.head?, b.1 = 0 := by
  constructor
  · rintro ⟨-, hsafe⟩ caller info hcalls hbad
    obtain ⟨hcaller, hshort⟩ := (fails_iff hcalls.2).1 (hsafe caller info hcalls hbad).1
    obtain ⟨b, a, num, c, opr, hnum, -⟩ := hbad
    exact ⟨hcaller, hshort.resolve_left (by simp [hnum])⟩
  · intro h
    refine ⟨fun hovf htrap => ?_, fun caller info hcalls hbad => ?_⟩
    · rcases calcMain_fault htrap with ⟨t, c, u, info, -, -, -, hnum⟩ | ⟨caller, info, hcalls, hdo⟩
      · exact numHandle_fault hovf hnum
      · obtain ⟨b, a, num, c, opr, hnum, hopr, happly⟩ := doStack_fault hdo
        obtain ⟨hc, hbad, hnot⟩ := apply_traps hovf happly
        obtain ⟨-, hdiv, b', hb', hzero⟩ :=
          h caller info hcalls ⟨b, a, num, c, opr, hnum, hopr, hc, hbad⟩
        rw [hopr] at hdiv
        rw [hnum] at hb'
        obtain rfl : c = '/' := by simpa using hdiv
        obtain rfl : b = b' := by simpa using hb'
        -- `do_stack` tests for just this division, and does not trap
        exact hnot ⟨rfl, hzero⟩
    · obtain ⟨hcaller, hdiv⟩ := h caller info hcalls hbad
      have hfails : caller.Fails ovf info := (fails_iff hcalls.2).2 ⟨hcaller, Or.inr hdiv⟩
      obtain ⟨⟨start, hstart, hrounds⟩, -⟩ := hcalls
      exact ⟨hfails, errorExit_of_fails hstart hrounds hfails⟩

/-- A remainder is taken without a test of the divisor. -/
theorem not_dividesSafely_mod :
    ¬ DividesSafely (fun _ => .error .overflow) ['1', '%', '0'] := by
  rintro ⟨htraps, -⟩
  exact htraps (by simp) ⟨3, rfl⟩

/-- Inside of brackets the error of a division by zero is lost. -/
example : (calcMain (fun _ => .error .overflow) calcInit ['(', '1', '/', '0', ')']).Ends
    (.ok (0, ⟨[], [], .NUM⟩)) := ⟨4, rfl⟩

end Calc

end DemoClass
