import DemoClass.Calc.Returns
import Mathlib.Data.List.Induction

/-!
# Which ill-formed strings are errors

A run that returns takes an error exit for every string that is not loose.  For a loose
string each operator has its numbers, until a division by zero takes two and gives none.
`bracket_handle` does not report that division, but an operator that is left, or the next
one, misses a number (`errorExit_iff_zeroShows`).
-/

namespace DemoClass

namespace Calc

variable (ovf : ℤ → Except Fault CInt)

/-- A string that is no expression is an error. -/
def RejectsIllFormed (s : List Char) : Prop := ¬ Expression s → ErrorExit ovf s

/-- A division by zero is due in `opr_handle` or at the end, or in `bracket_handle` with
one more operator on the stack or next in the string. -/
def ZeroShows (s : List Char) : Prop :=
  (∃ caller ≠ .bracket, ∃ info, Calls ovf s caller info ∧ ZeroDivision info) ∨
    ∃ t u start info, s = t ++ ')' :: u ∧ (scan ovf t calcInit).Ends (.ok (none, start)) ∧
      Caller.bracket.Rounds ovf start info ∧ ZeroDivision info ∧
      (2 ≤ operators info.opr ∨ ∃ c ∈ (core u).head?, IsOpr c)

variable {ovf} {s t u : List Char} {c : Char} {info info' start : CalcInfo} {caller : Caller}

/-! ### The numbers of a loose string -/

lemma core_cons_of_mem (h : ¬ IsBlank c ∧ c ≠ '(' ∧ c ≠ ')') (u : List Char) :
    core (c :: u) = c :: core u := by
  simp [core, h]

lemma core_cons_of_not (h : ¬ (¬ IsBlank c ∧ c ≠ '(' ∧ c ≠ ')')) (u : List Char) :
    core (c :: u) = core u := by
  simp only [core]
  exact List.filter_cons_of_neg (by simpa using h)

lemma IsOpr.core_cons (h : IsOpr c) (u : List Char) : core (c :: u) = c :: core u :=
  core_cons_of_mem h.not_skipped u

/-- A number for each operator and one more behind a number; or none at all behind one, with
no operator next. -/
def Steady (u : List Char) (info : CalcInfo) : Prop :=
  info.num.length = operators info.opr + info.flag.owed ∨
    (info.num = [] ∧ operators info.opr = 0 ∧ info.flag = .NUM) ∧
      ∀ c ∈ (core u).head?, ¬ IsOpr c

lemma operators_pos (htop : ∃ c ∈ info.opr.head?, c ≠ '(') : 1 ≤ operators info.opr := by
  obtain ⟨top_c, htop, hopen⟩ := htop
  match info, htop with
  | ⟨num, _ :: opr, flag⟩, rfl =>
      rw [operators_cons hopen]
      exact Nat.le_add_left _ _

/-- With two numbers `do_stack` takes an operator and a number, or two for a division by
zero. -/
lemma DoStack.counts {ret : ℤ} (h : DoStack ovf info ret info')
    (htop : ∃ c ∈ info.opr.head?, c ≠ '(') (htwo : 2 ≤ info.num.length) :
    operators info'.opr + 1 = operators info.opr ∧ info'.flag = info.flag ∧
      (info'.num.length + 1 = info.num.length ∨
        ZeroDivision info ∧ info'.num.length + 2 = info.num.length) := by
  obtain ⟨top_c, htop, hopen⟩ := htop
  cases h with
  | noNumber => simp at htwo
  | oneNumber => simp at htwo
  | noOpr => simp at htop
  | @zero b a num c opr flag happly =>
      obtain rfl : c = top_c := by simpa using htop
      obtain ⟨rfl, hzero⟩ := apply_none_iff.1 happly
      exact ⟨(operators_cons hopen opr).symm, rfl, Or.inr ⟨⟨rfl, b, rfl, hzero⟩, rfl⟩⟩
  | @value b a v num c opr flag _ =>
      obtain rfl : c = top_c := by simpa using htop
      exact ⟨(operators_cons hopen opr).symm, rfl, Or.inl rfl⟩

/-- Brackets alone are no call. -/
lemma Caller.Rounds.operators_eq_zero (h : caller.Rounds ovf start info)
    (hcaller : ∀ c, caller = .opr c → IsOpr c) (hstart : operators start.opr = 0) :
    operators info.opr = 0 := by
  refine h.invariant (I := fun i => operators i.opr = 0) ?_ hstart
  rintro i i' ret ⟨top_c, htop, happ⟩ hdo hi
  have hpos := operators_pos ⟨top_c, htop, happ.ne_open hcaller⟩
  omega

/-- Where one number more than operators is on the stack, calls find their numbers. -/
lemma Caller.Rounds.full (h : caller.Rounds ovf start info)
    (hcaller : ∀ c, caller = .opr c → IsOpr c)
    (hno : ∀ i, caller.Rounds ovf start i → (∃ top_c ∈ i.opr.head?, caller.Applies top_c) →
      ¬ ZeroDivision i)
    (hstart : start.num.length = operators start.opr + 1) :
    info.num.length = operators info.opr + 1 := by
  refine h.induction (I := fun i => i.num.length = operators i.opr + 1) ?_ hstart
  intro i i' ret hrounds happ hdo hi
  have htop : ∃ c ∈ i.opr.head?, c ≠ '(' := by
    obtain ⟨top_c, htop, happ⟩ := happ
    exact ⟨top_c, htop, happ.ne_open hcaller⟩
  have hpos := operators_pos htop
  obtain ⟨hopr, -, hnum | ⟨hzero, -⟩⟩ := hdo.counts htop (by omega)
  · omega
  · exact absurd hzero (hno i hrounds happ)

/-- A call in such a loop does not come up short. -/
lemma Calls.not_short (h : Calls ovf s caller info) (hno : ¬ ZeroDivision info)
    (hnum : info.num.length = operators info.opr + 1) : ¬ Short info := by
  obtain ⟨c, htop, hc⟩ := h.top_isOpr
  have hpos := operators_pos ⟨c, htop, hc.ne_open⟩
  rintro (hshort | hzero)
  · omega
  · exact hno hzero

/-- The loop of `bracket_handle` may take the last two numbers. -/
lemma Steady.rounds (h : Steady u start) (hrounds : Caller.bracket.Rounds ovf start info)
    (htwo : ∀ i, Caller.bracket.Rounds ovf start i →
      (∃ top_c ∈ i.opr.head?, Caller.bracket.Applies top_c) → 2 ≤ i.num.length)
    (hno : ∀ i, Caller.bracket.Rounds ovf start i → ZeroDivision i →
      operators i.opr < 2 ∧ ∀ c ∈ (core u).head?, ¬ IsOpr c) : Steady u info := by
  refine hrounds.induction (I := Steady u) ?_ h
  intro i i' ret hi happ hdo hsteady
  have hpos := operators_pos happ
  obtain ⟨hopr, hflag, hnum⟩ := hdo.counts happ (htwo i hi happ)
  rcases hsteady with hlen | ⟨⟨-, hnil, -⟩, -⟩
  · rcases hnum with hnum | ⟨hzero, hnum⟩
    · left
      rw [hflag]
      omega
    · obtain ⟨hone, hnext⟩ := hno i hi hzero
      have hlen' := htwo i hi happ
      right
      refine ⟨⟨List.length_eq_zero_iff.1 ?_, by omega, ?_⟩, hnext⟩
      · have := i.flag.owed_le
        omega
      · rw [hflag]
        cases hf : i.flag with
        | NUM => rfl
        | OPR =>
            rw [hf] at hlen
            simp only [Flag.owed] at hlen
            omega
  · omega

namespace Steady

lemma digit (h : Steady u info) (hnum : (numHandle ovf c info).Ends (.ok info')) (v : List Char) :
    Steady v info' := by
  obtain ⟨hopr, hflag, hlen⟩ := numHandle_lags hnum
  left
  rw [hopr, hflag, hlen]
  rcases h with hlen | ⟨⟨hnil, hzero, hflag⟩, -⟩
  · have hf := info.flag.owed_le
    simp only [Flag.owed] at hf ⊢
    cases hflag : info.flag with
    | OPR => simp only [hflag, Flag.owed] at hlen ⊢; omega
    | NUM => simp only [hflag, Flag.owed] at hlen ⊢; omega
  · simp [hnil, hzero, hflag, Flag.owed]

lemma skip (h : Steady (c :: u) info) (hc : ¬ (¬ IsBlank c ∧ c ≠ '(' ∧ c ≠ ')')) :
    Steady u info := by
  rwa [Steady, core_cons_of_not hc] at h

lemma openBracket (h : Steady u info) : Steady u { info with opr := '(' :: info.opr } := by
  simpa [Steady, operators] using h

/-- In front of an operator the second case is excluded. -/
lemma length_eq (h : Steady (c :: u) info) (hc : IsOpr c) :
    info.num.length = operators info.opr + info.flag.owed := by
  refine h.resolve_right fun hnil => hnil.2 c ?_ hc
  rw [hc.core_cons]
  rfl

lemma sign (h : Steady (c :: u) info) (hflag : info.flag = .OPR) (hc : c = '+' ∨ c = '-')
    {iret : ℤ} (hopr : (oprHandle ovf c info).Ends (.ok (iret, info'))) : Steady u info' := by
  have hlen := h.length_eq (by rcases hc with rfl | rfl <;> simp [IsOpr])
  obtain ⟨num, opr, flag⟩ := info
  obtain rfl : flag = .OPR := hflag
  left
  rcases hc with rfl | rfl
  · obtain ⟨-, rfl⟩ : iret = 0 ∧ info' = ⟨num, opr, .OPR⟩ := by simpa [oprHandle] using hopr
    exact hlen
  · obtain ⟨-, rfl⟩ : iret = 0 ∧ info' = ⟨⟨0, by decide⟩ :: num, '-' :: opr, .OPR⟩ := by
      simpa [oprHandle] using hopr
    rw [operators_cons (by decide)]
    simp only [List.length_cons, Flag.owed] at hlen ⊢
    omega

end Steady

/-- Where no operator is misused, one that is no sign stands behind a number. -/
lemma flag_eq_num (hmis : ¬ Misused (core s)) (hs : s = t ++ c :: u) (hc : IsOpr c)
    (ht : (scan ovf t calcInit).Ends (.ok (none, info)))
    (hbinary : info.flag = .NUM ∨ c ≠ '+' ∧ c ≠ '-') : info.flag = .NUM := by
  obtain ⟨-, m, hfollows⟩ := follows_of_scan ht
  rcases hbinary with hflag | ⟨hplus, hminus⟩
  · exact hflag
  · by_contra hflag
    refine hmis ⟨core t, c, core u, ?_, ?_, fun hdigit => hflag (hfollows.flag.2 hdigit)⟩
    · rw [hs, core, List.filter_append, ← core, ← core, hc.core_cons]
    · rcases hc with h | h | h | h | h
      · exact Or.inl h
      · exact Or.inr (Or.inl h)
      · exact Or.inr (Or.inr h)
      · exact absurd h hplus
      · exact absurd h hminus

/-- What is there in the loop of `opr_handle`. -/
lemma Steady.oprCalls (h : Steady (c :: u) info) (hmis : ¬ Misused (core s))
    (hno : ¬ ZeroShows ovf s) (hs : s = t ++ c :: u) (hc : IsOpr c)
    (ht : (scan ovf t calcInit).Ends (.ok (none, info)))
    (hbinary : info.flag = .NUM ∨ c ≠ '+' ∧ c ≠ '-')
    (hrounds : (Caller.opr c).Rounds ovf { info with flag := .OPR } info') :
    info'.num.length = operators info'.opr + 1 ∧ (Calls ovf s (.opr c) info' → ¬ Short info') := by
  have hstart : (Caller.opr c).Starts ovf s { info with flag := .OPR } :=
    ⟨t, u, info, hs, hc, ht, hbinary, rfl⟩
  have hzero : ∀ i, Calls ovf s (.opr c) i → ¬ ZeroDivision i := fun i hcalls hzero =>
    hno (Or.inl ⟨.opr c, by simp, i, hcalls, hzero⟩)
  have hlen : info.num.length = operators info.opr + 1 := by
    rw [h.length_eq hc, flag_eq_num hmis hs hc ht hbinary]
    rfl
  have hcaller : ∀ d, Caller.opr c = .opr d → IsOpr d := by
    rintro d ⟨⟩
    exact hc
  have hfull := hrounds.full hcaller
    (fun i hi happ => hzero i ⟨⟨_, hstart, hi⟩, happ⟩) hlen
  exact ⟨hfull, fun hcalls => hcalls.not_short (hzero info' hcalls) hfull⟩

lemma Steady.binary (h : Steady (c :: u) info) (hmis : ¬ Misused (core s))
    (hno : ¬ ZeroShows ovf s) (hs : s = t ++ c :: u) (hc : IsOpr c)
    (ht : (scan ovf t calcInit).Ends (.ok (none, info)))
    (hbinary : info.flag = .NUM ∨ c ≠ '+' ∧ c ≠ '-') {iret : ℤ} (hret : ¬ iret < 0)
    (hopr : (oprHandle ovf c info).Ends (.ok (iret, info'))) : Steady u info' := by
  rw [oprHandle_of_binary hbinary, oprPush_ends_iff] at hopr
  obtain ⟨i, hrounds, hpush | ⟨-, hfail, -⟩⟩ := oprLoop_exit hopr
  · obtain ⟨hfull, -⟩ := h.oprCalls hmis hno hs hc ht hbinary hrounds
    obtain ⟨-, rfl⟩ : iret = 0 ∧ info' = { i with opr := c :: i.opr } := by simpa using hpush
    have hflag : i.flag = .OPR := (hrounds.frame (by rintro d ⟨⟩; exact hc)).1
    left
    rw [operators_cons hc.ne_open, hflag]
    exact hfull
  · obtain rfl : iret = -1 := hfail
    exact absurd (show (-1 : ℤ) < 0 by decide) hret

lemma Steady.closeBracket (h : Steady (')' :: u) info)
    (htwo : ∀ info, Calls ovf s .bracket info → 2 ≤ info.num.length)
    (hno : ¬ ZeroShows ovf s) (hs : s = t ++ ')' :: u)
    (ht : (scan ovf t calcInit).Ends (.ok (none, info))) {iret : ℤ} (hret : ¬ iret < 0)
    (hloop : (Comp.loop (bracketHandleBody ovf) info).Ends (.ok (iret, info'))) :
    Steady u info' := by
  obtain ⟨i, hrounds, ⟨-, hfail⟩ | ⟨opr, hi, hpop⟩⟩ := bracketLoop_exit hloop
  · obtain ⟨rfl, -⟩ : iret = -1 ∧ info' = i := by simpa using hfail
    exact absurd (show (-1 : ℤ) < 0 by decide) hret
  · have hsteady : Steady u i := by
      refine (h.skip (by decide)).rounds hrounds ?_ ?_
      · intro j hj happ
        exact htwo j ⟨⟨info, ⟨t, u, hs, ht⟩, hj⟩, happ⟩
      · intro j hj hzero
        by_contra hshows
        refine hno (Or.inr ⟨t, u, info, j, hs, ht, hj, hzero, ?_⟩)
        rw [not_and_or, not_lt] at hshows
        exact hshows.imp_right fun h => by simpa using h
    obtain ⟨-, rfl⟩ : iret = 0 ∧ info' = { i with opr := opr } := by simpa using hpop
    simpa [Steady, operators, hi] using hsteady

/-- The numbers behind every prefix. -/
lemma steady_of_scan (hmis : ¬ Misused (core s))
    (htwo : ∀ info, Calls ovf s .bracket info → 2 ≤ info.num.length)
    (hno : ¬ ZeroShows ovf s) (hs : s = t ++ u)
    (h : (scan ovf t calcInit).Ends (.ok (none, info))) : Steady u info := by
  induction t using List.reverseRecOn generalizing u info with
  | nil =>
      obtain rfl : info = calcInit := by simpa [scan] using h
      exact Or.inl rfl
  | append_singleton t c ih =>
      obtain ⟨i, ht, hc⟩ := scan_append_none.1 h
      obtain ⟨i', hchar, hret⟩ := scan_cons_none.1 hc
      obtain rfl : info = i' := by simpa [scan] using hret
      replace hs : s = t ++ c :: u := by simpa using hs
      have hsteady := ih hs ht
      rcases charHandle_none hchar with ⟨-, hnum⟩ | ⟨hopr, iret, hneg, ho⟩ | ⟨hblank, rfl⟩ |
          ⟨rfl, rfl⟩ | ⟨rfl, iret, hneg, hloop⟩
      · exact hsteady.digit hnum u
      · by_cases hbinary : i.flag = .NUM ∨ c ≠ '+' ∧ c ≠ '-'
        · exact hsteady.binary hmis hno hs hopr ht hbinary hneg ho
        · obtain ⟨hflag, hsign⟩ := sign_of_not_binary hbinary
          exact hsteady.sign hflag hsign ho
      · exact hsteady.skip (by simp [hblank])
      · exact (hsteady.skip (by decide)).openBracket
      · exact hsteady.closeBracket htwo hno hs ht hneg hloop

/-- What a blank or a bracket does. -/
lemma charHandle_skipped (hc : ¬ (¬ IsBlank c ∧ c ≠ '(' ∧ c ≠ ')'))
    (h : (charHandle ovf c start).Ends (.ok (none, info))) :
    info = start ∨ info = { start with opr := '(' :: start.opr } ∨ ∃ iret, ¬ iret < 0 ∧
      (Comp.loop (bracketHandleBody ovf) start).Ends (.ok (iret, info)) := by
  rcases charHandle_none h with ⟨hdigit, -⟩ | ⟨hopr, -⟩ | ⟨-, hinfo⟩ | ⟨-, hinfo⟩ | ⟨-, hloop⟩
  · exact absurd hdigit.not_skipped hc
  · exact absurd hopr.not_skipped hc
  · exact Or.inl hinfo
  · exact Or.inr (Or.inl hinfo)
  · exact Or.inr (Or.inr hloop)

/-- Signs that are no minus leave nothing but brackets. -/
lemma operators_of_plus (hplus : ∀ c ∈ core s, c = '+') (hstart : start.flag = .OPR)
    (hnil : operators start.opr = 0) (h : (scan ovf s start).Ends (.ok (none, info))) :
    operators info.opr = 0 := by
  induction s generalizing start with
  | nil =>
      obtain rfl : info = start := by simpa [scan] using h
      exact hnil
  | cons c s ih =>
      obtain ⟨i, hchar, hrest⟩ := scan_cons_none.1 h
      by_cases hc : ¬ IsBlank c ∧ c ≠ '(' ∧ c ≠ ')'
      · rw [core_cons_of_mem hc] at hplus
        obtain rfl : c = '+' := hplus c (by simp)
        obtain ⟨num, opr, flag⟩ := start
        obtain rfl : flag = .OPR := hstart
        obtain rfl : i = ⟨num, opr, .OPR⟩ := by
          simpa [charHandle, oprHandle, IsDigit] using hchar
        exact ih (fun d hd => hplus d (by simp [hd])) rfl hnil hrest
      · rw [core_cons_of_not hc] at hplus
        suffices hi : i.flag = .OPR ∧ operators i.opr = 0 from ih hplus hi.1 hi.2 hrest
        rcases charHandle_skipped hc hchar with rfl | rfl | ⟨iret, hneg, hloop⟩
        · exact ⟨hstart, hnil⟩
        · exact ⟨hstart, by simpa [operators] using hnil⟩
        · obtain ⟨k, hrounds, ⟨-, hfail⟩ | ⟨opr, hk, hpop⟩⟩ := bracketLoop_exit hloop
          · obtain ⟨rfl, -⟩ : iret = -1 ∧ i = k := by simpa using hfail
            exact absurd (show (-1 : ℤ) < 0 by decide) hneg
          · have hflag : k.flag = start.flag := (hrounds.frame (by simp)).1
            have hzero : operators k.opr = 0 := hrounds.operators_eq_zero (by simp) hnil
            obtain ⟨-, rfl⟩ : iret = 0 ∧ i = { k with opr := opr } := by simpa using hpop
            exact ⟨hflag.trans hstart, by simpa [operators, hk] using hzero⟩

/-- Without a division by zero that shows, a loose string has its value. -/
lemma not_errorExit (hloose : Loose s)
    (htwo : ∀ info, Calls ovf s .bracket info → 2 ≤ info.num.length)
    (hno : ¬ ZeroShows ovf s) : ¬ ErrorExit ovf s := by
  intro h
  have hmis := hloose.behind_digit
  obtain ⟨caller, hcaller, info, hcalls, hshort⟩ := (not_loose_or_short h).resolve_left (by simpa)
  obtain ⟨⟨start, hstart, hrounds⟩, happ⟩ := hcalls
  cases caller with
  | opr c =>
      obtain ⟨t, u, i, hs, hc, ht, hbinary, rfl⟩ := hstart
      have hsteady := steady_of_scan hmis htwo hno hs ht
      obtain ⟨-, hnot⟩ := hsteady.oprCalls hmis hno hs hc ht hbinary hrounds
      exact hnot ⟨⟨_, ⟨t, u, i, hs, hc, ht, hbinary, rfl⟩, hrounds⟩, happ⟩ hshort
  | bracket => exact hcaller rfl
  | main =>
      have hzero : ∀ i, Calls ovf s .main i → ¬ ZeroDivision i := fun i hcalls hzero =>
        hno (Or.inl ⟨.main, by simp, i, hcalls, hzero⟩)
      have hsome : operators start.opr ≠ 0 := fun hnil => by
        have hpos := operators_pos happ
        have hzero := hrounds.operators_eq_zero (by simp) hnil
        omega
      have hlen : start.num.length = operators start.opr + start.flag.owed :=
        (steady_of_scan (u := []) hmis htwo hno (by simp) hstart).resolve_right fun hnil =>
          hsome hnil.1.2.1
      obtain ⟨-, m, hfollows⟩ := follows_of_scan hstart
      have hflag : start.flag = .NUM := by
        rcases hloose.ends with hdigit | hplus
        · exact hfollows.flag.2 hdigit
        · exact absurd (operators_of_plus hplus rfl rfl hstart) hsome
      rw [hflag] at hlen
      refine Calls.not_short ⟨⟨start, hstart, hrounds⟩, happ⟩ ?_ ?_ hshort
      · exact hzero info ⟨⟨start, hstart, hrounds⟩, happ⟩
      · exact hrounds.full (by simp) (fun i hi happ => hzero i ⟨⟨start, hstart, hi⟩, happ⟩) hlen

/-! ### Divisions by zero that show -/

/-- A number that is missing stays so when an operator is left. -/
lemma Follows.missing {m : ℕ} (h : Follows m t info)
    (hlags : Lags 1 info.flag.owed True info.num info.opr) : Follows 1 t info where
  le := le_rfl
  flag := h.flag
  brackets := h.brackets
  misused _ := rfl
  lags := hlags.mono fun _ => trivial

/-- A division by zero in `bracket_handle` leaves one number too few. -/
lemma Follows.zeroDivision {m : ℕ} {i : CalcInfo} {p : Prop} (h : Follows m t start)
    (hrounds : Caller.bracket.Rounds ovf start info) (hzero : ZeroDivision info)
    (htwo : 2 ≤ info.num.length) (hp : p → 2 ≤ operators info.opr)
    (hloop : (Comp.loop (bracketHandleBody ovf) start).Ends (.ok (0, i))) :
    Lags 1 i.flag.owed p i.num i.opr := by
  have hinfo : Lags 0 start.flag.owed False info.num info.opr := by
    refine hrounds.lags (by simp) False.elim ⟨?_, False.elim⟩
    have := h.lags.1
    omega
  have hflag := (hrounds.frame (by simp)).1
  obtain ⟨n, hn⟩ := hrounds
  rw [hn.ends_iff] at hloop
  obtain ⟨hdiv, b, hb, hzero⟩ := hzero
  match info, htwo, hdiv, hb with
  | ⟨_ :: a :: num, _ :: opr, flag⟩, _, rfl, rfl =>
      have hslash : '/' ≠ '(' := by decide
      have happly : (apply ovf '/' a b).Ends (.ok none) := apply_none_iff.2 ⟨rfl, hzero⟩
      rw [(bracketHandleBody_apply hslash happly).loop_inl_iff] at hloop
      obtain ⟨hlen, -⟩ := hinfo
      simp only [List.length_cons, operators_cons hslash] at hlen hp
      have hrest : Lags 1 start.flag.owed p num opr := ⟨by omega, fun h => by have := hp h; omega⟩
      obtain ⟨hlags, hflag', -⟩ :=
        bracketLoop_lags hloop (by decide) (fun _ => start.flag.owed_le) hrest
      rw [hflag', show flag = start.flag from hflag]
      exact hlags

/-- Blanks and brackets do not give a number. -/
lemma lags_of_core_nil (hcore : core u = [])
    (hlags : Lags 1 start.flag.owed False start.num start.opr)
    (h : (scan ovf u start).Ends (.ok (none, info))) :
    Lags 1 info.flag.owed False info.num info.opr := by
  induction u generalizing start with
  | nil =>
      obtain rfl : info = start := by simpa [scan] using h
      exact hlags
  | cons c u ih =>
      obtain ⟨i, hchar, hrest⟩ := scan_cons_none.1 h
      have hc : ¬ (¬ IsBlank c ∧ c ≠ '(' ∧ c ≠ ')') := fun hc => by
        simp [core_cons_of_mem hc] at hcore
      rw [core_cons_of_not hc] at hcore
      suffices hi : Lags 1 i.flag.owed False i.num i.opr from ih hcore hi hrest
      rcases charHandle_skipped hc hchar with rfl | rfl | ⟨iret, hneg, hloop⟩
      · exact hlags
      · simpa [Lags, operators] using hlags
      · obtain ⟨hi, hflag, -⟩ := bracketLoop_lags hloop hneg False.elim hlags
        rw [hflag]
        exact hi

/-- An operator behind a number too few. -/
lemma Follows.nextOpr {m : ℕ} {i : CalcInfo} (h : Follows m t i) (hc : IsOpr c)
    (hlags : Lags 1 i.flag.owed False i.num i.opr)
    (hchar : (charHandle ovf c i).Ends (.ok (none, info))) : Follows 1 (t ++ [c]) info := by
  cases hflag : i.flag with
  | OPR =>
      rw [hflag] at hlags
      have hpos : 1 ≤ operators i.opr := by
        have := hlags.1
        simp only [Flag.owed] at this
        omega
      have hmissing : Follows 1 t i := h.missing ⟨by rw [hflag]; exact hlags.1, fun _ => hpos⟩
      obtain ⟨-, m', hm', hfollows⟩ := hmissing.step hchar
      obtain rfl : m' = 1 := le_antisymm hfollows.le hm'
      exact hfollows
  | NUM =>
      rw [charHandle_opr hc] at hchar
      obtain ⟨⟨iret, j⟩, ho, hret⟩ := Comp.ends_bind_ok_iff.1 hchar
      obtain ⟨hneg, rfl⟩ : ¬ iret < 0 ∧ info = j := by simpa using hret
      rw [oprHandle_of_binary (Or.inl hflag), oprPush_ends_iff] at ho
      rw [hflag] at hlags
      obtain ⟨opr, hpush, hl, hf, hcount⟩ := oprLoop_lags hc ho hneg False.elim hlags
      exact h.push hc le_rfl (fun _ => rfl) hpush hl.1 hf hcount

lemma exists_of_mem_head_core (h : c ∈ (core u).head?) : ∃ w v, u = w ++ c :: v ∧ core w = [] := by
  obtain ⟨cs, hcs⟩ := List.head?_eq_some_iff.1 h
  obtain ⟨w, v, rfl, hw, -⟩ := List.filter_eq_cons_iff.1 hcs
  exact ⟨w, v, rfl, List.filter_eq_nil_iff.2 hw⟩

/-- Behind a division by zero in `bracket_handle` that shows, a number is missing for good. -/
lemma Follows.of_zeroDivision {m : ℕ} {i i' : CalcInfo} (h : Follows m t start)
    (hrounds : Caller.bracket.Rounds ovf start i) (hzero : ZeroDivision i)
    (htwo : 2 ≤ i.num.length) (hnext : 2 ≤ operators i.opr ∨ ∃ c ∈ (core u).head?, IsOpr c)
    (hloop : (Comp.loop (bracketHandleBody ovf) start).Ends (.ok (0, i')))
    (hscan : (Calc.scan ovf u i').Ends (.ok (none, info))) :
    Follows 1 (t ++ ')' :: u) info := by
  have hclosed : Follows m (t ++ [')']) i' := h.closeBracket (by decide) hloop
  -- a state in which the number is missing, with the rest of the string
  obtain ⟨w, v, j, rfl, hj, hv⟩ : ∃ w v j, u = w ++ v ∧ Follows 1 (t ++ [')'] ++ w) j ∧
      (Calc.scan ovf v j).Ends (.ok (none, info)) := by
    rcases hnext with hopr | ⟨c, hc, hopr⟩
    · have hlags := h.zeroDivision (p := True) hrounds hzero htwo (fun _ => hopr) hloop
      exact ⟨[], u, i', rfl, by simpa using hclosed.missing hlags, hscan⟩
    · obtain ⟨w, v, rfl, hw⟩ := exists_of_mem_head_core hc
      obtain ⟨j, hj, hrest⟩ := scan_append_none.1 hscan
      obtain ⟨k, hchar, hv⟩ := scan_cons_none.1 hrest
      have hlags := h.zeroDivision hrounds hzero htwo False.elim hloop
      obtain ⟨-, m', -, hfollows⟩ := hclosed.scan hj
      have hk := hfollows.nextOpr hopr (lags_of_core_nil hw hlags hj) hchar
      exact ⟨w ++ [c], v, k, by simp, by simpa using hk, hv⟩
  obtain ⟨-, m', hm', hfollows⟩ := hj.scan hv
  obtain rfl : m' = 1 := le_antisymm hfollows.le hm'
  simpa using hfollows

/-- **Divisions by zero in a loose string.**  Of a run that returns they are the only errors. -/
theorem errorExit_iff_zeroShows (hloose : Loose s) (hruns : RunsThrough ovf s) :
    ErrorExit ovf s ↔ ZeroShows ovf s := by
  constructor
  · intro h
    by_contra hno
    exact not_errorExit hloose hruns.bracket hno h
  · rintro (⟨caller, hcaller, i, hcalls, hzero⟩ |
      ⟨t, u, start, i, rfl, ht, hrounds, hzero, hnext⟩)
    · have hfails : caller.Fails ovf i := (fails_iff hcalls.2).2 ⟨hcaller, Or.inr hzero⟩
      obtain ⟨⟨start, hstart, hrounds⟩, -⟩ := hcalls
      exact errorExit_of_fails hstart hrounds hfails
    · obtain ⟨p, hp⟩ := returns_iff.2 hruns
      refine (errorExit_or_value hp).resolve_right ?_
      rintro ⟨info, info', hscan, hdrain⟩
      obtain ⟨-, m, hfollows⟩ := follows_of_scan ht
      have htwo : 2 ≤ i.num.length := hruns.bracket i
        ⟨⟨start, ⟨t, u, rfl, ht⟩, hrounds⟩, '/', hzero.1, show '/' ≠ '(' by decide⟩
      obtain ⟨start', ht', hrest⟩ := scan_append_none.1 hscan
      obtain rfl : start = start' := by simpa using ht.unique ht'
      obtain ⟨i₁, hchar, hu⟩ := scan_cons_none.1 hrest
      rw [charHandle_close] at hchar
      obtain ⟨⟨iret, j⟩, hloop, hret⟩ := Comp.ends_bind_ok_iff.1 hchar
      obtain ⟨hneg, rfl⟩ : ¬ iret < 0 ∧ i₁ = j := by simpa using hret
      obtain rfl : iret = 0 := by
        obtain ⟨k, -, ⟨-, hk⟩ | ⟨opr, -, hk⟩⟩ := bracketLoop_exit hloop
        · exact absurd (Prod.ext_iff.1 hk).1 (by omega)
        · exact (Prod.ext_iff.1 hk).1
      have hmissing := hfollows.of_zeroDivision hrounds hzero htwo hnext hloop hu
      exact (hmissing.value hdrain).1 rfl

/-- **Which ill-formed strings are errors.**  A string that is no expression leads to an
error exit exactly if the stacks are always in order, and the string is not loose or has a
division by zero that shows. -/
theorem rejectsIllFormed_iff (ovf : ℤ → Except Fault CInt) (s : List Char) :
    RejectsIllFormed ovf s ↔
      Expression s ∨ RunsThrough ovf s ∧ (¬ Loose s ∨ ZeroShows ovf s) := by
  rw [RejectsIllFormed, ← or_iff_not_imp_left]
  refine or_congr_right ⟨fun h => ?_, fun ⟨hruns, h⟩ => ?_⟩
  · obtain ⟨ret, info, hends⟩ := h.calcMain_ends
    have hruns : RunsThrough ovf s := returns_iff.1 ⟨(ret, info), hends⟩
    refine ⟨hruns, or_iff_not_imp_left.2 fun hloose => ?_⟩
    exact (errorExit_iff_zeroShows (not_not.1 hloose) hruns).1 h
  · by_cases hloose : Loose s
    · exact (errorExit_iff_zeroShows hloose hruns).2 (h.resolve_left (by simpa))
    · obtain ⟨p, hp⟩ := returns_iff.2 hruns
      refine (errorExit_or_value hp).resolve_right ?_
      rintro ⟨start, info', hscan, hdrain⟩
      exact hloose (loose_of_value hscan hdrain)

/-- Two brackets are no expression and have the value 0. -/
theorem not_rejectsIllFormed_brackets :
    ¬ RejectsIllFormed (fun _ => .error .overflow) ['(', ')'] := by
  intro h
  have hno : ¬ Expression ['(', ')'] := by
    intro hexpr
    obtain ⟨d, hd, hdigit⟩ := hexpr.exists_digit
    have hd' : d = '(' ∨ d = ')' := by simpa using hd
    rcases hd' with rfl | rfl <;> exact absurd hdigit (by decide)
  have hscan : (scan (fun _ => .error .overflow) ['(', ')'] calcInit).Ends
      (.ok (none, calcInit)) := ⟨2, rfl⟩
  have hdrain : (Comp.loop (drainBody fun _ => .error .overflow) calcInit).Ends
      (.ok (none, calcInit)) := ⟨2, rfl⟩
  obtain ⟨ret, info', hsome | ⟨info, hnone, hloop⟩⟩ := h hno
  · exact absurd (hscan.unique hsome) (by simp)
  · obtain rfl : calcInit = info := by simpa using hscan.unique hnone
    exact absurd (hdrain.unique hloop) (by simp)

end Calc

end DemoClass
