import DemoClass.Calc.Calls

/-!
# Which strings the calculator accepts

The calculator has no parser.  What it computes a value for, or would if the divisions
and the brackets did not interfere, is `Loose`: apart from the blanks and the brackets,
which only have to be balanced, an operator that is no sign stands directly behind a
digit, and the string ends with a digit or has nothing but `+`.  `Follows` is what every
prefix of a string says about the stacks.
-/

namespace DemoClass

namespace Calc

/-- The digits and the operators of a string. -/
def core (s : List Char) : List Char := s.filter fun c => ¬ IsBlank c ∧ c ≠ '(' ∧ c ≠ ')'

/-- A digit is the last character. -/
def EndsInDigit (w : List Char) : Prop := ∃ d ∈ w.getLast?, IsDigit d

/-- An operator that is no sign and has no digit in front. -/
def Misused (w : List Char) : Prop :=
  ∃ t c u, w = t ++ c :: u ∧ (c = '*' ∨ c = '/' ∨ c = '%') ∧ ¬ EndsInDigit t

/-- No more brackets are closed than are open, and at the end all are closed. -/
def Balanced (s : List Char) : Prop :=
  (∀ t u, s = t ++ u → t.count ')' ≤ t.count '(') ∧ s.count ')' = s.count '('

/-- What an expression has at least. -/
structure Loose (s : List Char) : Prop where
  known : ∀ c ∈ s, Known c
  balanced : Balanced s
  behind_digit : ¬ Misused (core s)
  ends : EndsInDigit (core s) ∨ ∀ c ∈ core s, c = '+'

/-- The operators on the stack. -/
def operators (opr : List Char) : ℕ := opr.countP (· ≠ '(')

/-- There are `m` numbers fewer on the stack than the operators and `f` make possible, and
an operator is there when `p` says so. -/
def Lags (m f : ℕ) (p : Prop) (num : List CInt) (opr : List Char) : Prop :=
  num.length + m ≤ operators opr + f ∧ (p → 1 ≤ operators opr)

/-- 1 behind a number. -/
def Flag.owed : Flag → ℕ
  | .OPR => 0
  | .NUM => 1

/-- The stacks and the flag behind the string `t`, with `m` for the numbers that are missing. -/
structure Follows (m : ℕ) (t : List Char) (info : CalcInfo) : Prop where
  le : m ≤ 1
  flag : info.flag = .NUM ↔ EndsInDigit (core t)
  brackets : info.opr.count '(' + t.count ')' = t.count '('
  misused : Misused (core t) → m = 1
  lags : Lags m info.flag.owed (m = 1 ∨ info.flag = .OPR ∧ ∃ c ∈ core t, c ≠ '+') info.num
    info.opr

variable {ovf : ℤ → Except Fault CInt} {s t : List Char} {c : Char} {info info' : CalcInfo}
  {m f : ℕ} {p : Prop}

/-! ### The core of a string -/

lemma IsDigit.not_skipped (h : IsDigit c) : ¬ IsBlank c ∧ c ≠ '(' ∧ c ≠ ')' := by
  refine ⟨h.not_blank, ?_, ?_⟩
  · rintro rfl
    exact absurd h (by decide)
  · rintro rfl
    exact absurd h (by decide)

lemma IsOpr.not_skipped (h : IsOpr c) : ¬ IsBlank c ∧ c ≠ '(' ∧ c ≠ ')' := by
  rcases h with rfl | rfl | rfl | rfl | rfl <;> decide

lemma core_append_of_mem (h : ¬ IsBlank c ∧ c ≠ '(' ∧ c ≠ ')') :
    core (t ++ [c]) = core t ++ [c] := by
  simp [core, List.filter_append, h]

lemma core_append_of_not (h : ¬ (¬ IsBlank c ∧ c ≠ '(' ∧ c ≠ ')')) : core (t ++ [c]) = core t := by
  rw [core, List.filter_append, ← core]
  simp only [List.append_right_eq_self]
  exact List.filter_eq_nil_iff.2 (by simpa using h)

lemma endsInDigit_append : EndsInDigit (t ++ [c]) ↔ IsDigit c := by
  simp [EndsInDigit]

lemma misused_append : Misused (t ++ [c]) ↔
    Misused t ∨ (c = '*' ∨ c = '/' ∨ c = '%') ∧ ¬ EndsInDigit t := by
  constructor
  · rintro ⟨t', c', u, h, hc, hdigit⟩
    rcases List.eq_nil_or_concat u with rfl | ⟨u, d, rfl⟩
    · obtain ⟨rfl, rfl⟩ : t = t' ∧ c = c' := by simpa using List.append_inj' h rfl
      exact Or.inr ⟨hc, hdigit⟩
    · obtain ⟨rfl, -⟩ : t = t' ++ c' :: u ∧ c = d := by
        have h' : t ++ [c] = (t' ++ c' :: u) ++ [d] := by simpa using h
        simpa using List.append_inj' h' rfl
      exact Or.inl ⟨t', c', u, rfl, hc, hdigit⟩
  · rintro (⟨t', c', u, rfl, hc, hdigit⟩ | ⟨hc, hdigit⟩)
    · exact ⟨t', c', u ++ [c], by simp, hc, hdigit⟩
    · exact ⟨t, c, [], rfl, hc, hdigit⟩

/-! ### The stacks -/

lemma operators_cons (h : c ≠ '(') (opr : List Char) :
    operators (c :: opr) = operators opr + 1 := by
  simp [operators, h]

/-- A call of `do_stack` above a bracket leaves what lags. -/
lemma DoStack.lags {ret : ℤ} (h : DoStack ovf info ret info')
    (htop : ∃ top_c ∈ info.opr.head?, top_c ≠ '(') (hp : p → f ≤ m)
    (hlags : Lags m f p info.num info.opr) : Lags m f p info'.num info'.opr := by
  obtain ⟨top_c, htop, hopen⟩ := htop
  obtain ⟨hnum, hone⟩ := hlags
  cases h with
  | noNumber => exact ⟨hnum, hone⟩
  -- the number is lost without an operator
  | oneNumber =>
      simp only [List.length_cons, List.length_nil] at hnum
      exact ⟨by simp only [List.length_nil]; omega, hone⟩
  | noOpr => simp at htop
  | @zero b a num c opr flag _ =>
      obtain rfl : c = top_c := by simpa using htop
      simp only [operators_cons hopen, List.length_cons] at hnum hone
      refine ⟨by dsimp only; omega, fun h => ?_⟩
      have := hp h
      dsimp only
      omega
  | @value b a v num c opr flag _ =>
      obtain rfl : c = top_c := by simpa using htop
      simp only [operators_cons hopen, List.length_cons] at hnum hone
      refine ⟨by simp only [List.length_cons]; omega, fun h => ?_⟩
      have := hp h
      dsimp only
      omega

/-- It leaves the flag and the brackets, too. -/
lemma DoStack.frame {ret : ℤ} (h : DoStack ovf info ret info')
    (htop : ∃ top_c ∈ info.opr.head?, top_c ≠ '(') :
    info'.flag = info.flag ∧ info'.opr.count '(' = info.opr.count '(' := by
  obtain ⟨top_c, htop, hopen⟩ := htop
  cases h with
  | noNumber => exact ⟨rfl, rfl⟩
  | oneNumber => exact ⟨rfl, rfl⟩
  | noOpr => exact ⟨rfl, rfl⟩
  | @zero b a num c opr flag _ =>
      obtain rfl : c = top_c := by simpa using htop
      exact ⟨rfl, by simp [hopen]⟩
  | @value b a v num c opr flag _ =>
      obtain rfl : c = top_c := by simpa using htop
      exact ⟨rfl, by simp [hopen]⟩

/-- No loop applies a bracket. -/
lemma Caller.Applies.ne_open {caller : Caller} {top_c : Char}
    (hcaller : ∀ c, caller = .opr c → IsOpr c) (h : caller.Applies top_c) : top_c ≠ '(' := by
  cases caller with
  | opr c =>
      rintro rfl
      -- the level of a bracket is below that of every operator
      exact h (hcaller c rfl).level_pos
  | bracket => exact h
  | main => exact h

/-- The rounds of a loop leave what lags, the flag and the brackets. -/
lemma Caller.Rounds.lags {caller : Caller} (h : caller.Rounds ovf info info')
    (hcaller : ∀ c, caller = .opr c → IsOpr c) (hp : p → f ≤ m)
    (hlags : Lags m f p info.num info.opr) : Lags m f p info'.num info'.opr := by
  refine h.invariant (I := fun i => Lags m f p i.num i.opr) ?_ hlags
  rintro i i' ret ⟨top_c, htop, happ⟩ hdo hi
  exact hdo.lags ⟨top_c, htop, happ.ne_open hcaller⟩ hp hi

lemma Caller.Rounds.frame {caller : Caller} (h : caller.Rounds ovf info info')
    (hcaller : ∀ c, caller = .opr c → IsOpr c) :
    info'.flag = info.flag ∧ info'.opr.count '(' = info.opr.count '(' := by
  refine h.invariant
    (I := fun i => i.flag = info.flag ∧ i.opr.count '(' = info.opr.count '(') ?_ ⟨rfl, rfl⟩
  rintro i i' ret ⟨top_c, htop, happ⟩ hdo ⟨hflag, hcount⟩
  obtain ⟨hflag', hcount'⟩ := hdo.frame ⟨top_c, htop, happ.ne_open hcaller⟩
  exact ⟨hflag'.trans hflag, hcount'.trans hcount⟩

/-- The loop of `opr_handle` applies operators and pushes its own. -/
lemma oprLoop_lags {iret : ℤ} (hc : IsOpr c)
    (h : (Comp.loop (oprHandleBody ovf c) info).Ends (.ok (iret, info'))) (hret : ¬ iret < 0)
    (hp : p → f ≤ m) (hlags : Lags m f p info.num info.opr) :
    ∃ opr, info'.opr = c :: opr ∧ Lags m f p info'.num opr ∧
      info'.flag = info.flag ∧ info'.opr.count '(' = info.opr.count '(' := by
  obtain ⟨i, hrounds, hpush | ⟨-, hneg, -⟩⟩ := oprLoop_exit h
  · have hcaller : ∀ d, Caller.opr c = .opr d → IsOpr d := by
      rintro d ⟨⟩
      exact hc
    obtain ⟨rfl, rfl⟩ : iret = 0 ∧ info' = { i with opr := c :: i.opr } := by simpa using hpush
    obtain ⟨hflag, hcount⟩ := hrounds.frame hcaller
    refine ⟨i.opr, rfl, hrounds.lags hcaller hp hlags, hflag, ?_⟩
    simpa [hc.ne_open] using hcount
  · obtain rfl : iret = -1 := hneg
    exact absurd (show (-1 : ℤ) < 0 by decide) hret

/-- The loop of `bracket_handle` applies operators and pops the bracket. -/
lemma bracketLoop_lags {iret : ℤ}
    (h : (Comp.loop (bracketHandleBody ovf) info).Ends (.ok (iret, info'))) (hret : ¬ iret < 0)
    (hp : p → f ≤ m) (hlags : Lags m f p info.num info.opr) :
    Lags m f p info'.num info'.opr ∧ info'.flag = info.flag ∧
      info'.opr.count '(' + 1 = info.opr.count '(' := by
  obtain ⟨i, hrounds, ⟨-, hneg⟩ | ⟨opr, hopr, hpop⟩⟩ := bracketLoop_exit h
  · obtain ⟨rfl, -⟩ : iret = -1 ∧ info' = i := by simpa using hneg
    exact absurd (show (-1 : ℤ) < 0 by decide) hret
  · obtain ⟨rfl, rfl⟩ : iret = 0 ∧ info' = { i with opr := opr } := by simpa using hpop
    obtain ⟨hflag, hcount⟩ := hrounds.frame (by simp)
    have hi := hrounds.lags (by simp) hp hlags
    rw [hopr] at hi hcount
    refine ⟨?_, hflag, by simpa using hcount⟩
    simpa [Lags, operators] using hi

/-- The loop of `calc_main` that gets through has applied all operators. -/
lemma drainLoop_lags (h : (Comp.loop (drainBody ovf) info).Ends (.ok (none, info')))
    (hp : p → f ≤ m) (hlags : Lags m f p info.num info.opr) :
    ¬ p ∧ info.opr.count '(' = 0 := by
  obtain ⟨i, hrounds, ⟨hnil, -⟩ | ⟨-, hopen⟩ | ⟨-, hneg, -⟩⟩ := drainLoop_exit h
  · have hcount := (hrounds.frame (by simp)).2
    have hi := hrounds.lags (by simp) hp hlags
    rw [hnil] at hi hcount
    refine ⟨fun h => ?_, hcount.symm⟩
    exact absurd (hi.2 h) (by simp [operators])
  · simp at hopen
  · simp at hneg

/-- Reading a digit pushes a number, or replaces one. -/
lemma numHandle_lags (h : (numHandle ovf c info).Ends (.ok info')) :
    info'.opr = info.opr ∧ info'.flag = .NUM ∧
      info'.num.length = max 1 (info.num.length + 1 - info.flag.owed) := by
  obtain ⟨n, -, hrest⟩ := Comp.ends_bind_ok_iff.1 h
  match info, hrest with
  | ⟨num, opr, .OPR⟩, hrest =>
      obtain rfl : info' = ⟨n :: num, opr, .NUM⟩ := by simpa using hrest
      exact ⟨rfl, rfl, by simp [Flag.owed]⟩
  | ⟨[], opr, .NUM⟩, hrest =>
      obtain ⟨v, -, hv⟩ := Comp.ends_bind_ok_iff.1 hrest
      obtain rfl : info' = ⟨[v], opr, .NUM⟩ := by simpa using hv
      exact ⟨rfl, rfl, by simp⟩
  | ⟨q :: num, opr, .NUM⟩, hrest =>
      obtain ⟨k, -, hk⟩ := Comp.ends_bind_ok_iff.1 hrest
      obtain ⟨v, -, hv⟩ := Comp.ends_bind_ok_iff.1 hk
      obtain rfl : info' = ⟨v :: num, opr, .NUM⟩ := by simpa using hv
      exact ⟨rfl, rfl, by simp [Flag.owed]⟩

/-! ### What a prefix says about the stacks -/

lemma Flag.owed_le (flag : Flag) : flag.owed ≤ 1 := by
  cases flag <;> decide

lemma Lags.mono {q : Prop} {num : List CInt} {opr : List Char} (h : Lags m f p num opr)
    (hqp : q → p) : Lags m f q num opr := ⟨h.1, fun hq => h.2 (hqp hq)⟩

lemma follows_nil : Follows 0 [] calcInit where
  le := zero_le_one
  flag := by simp [calcInit, core, EndsInDigit]
  brackets := rfl
  misused := by
    rintro ⟨t, c, u, h, -⟩
    simp [core] at h
  lags := by simp [Lags, calcInit, core, operators, Flag.owed]

lemma Follows.digit (h : Follows m t info) (hc : IsDigit c)
    (hnum : (numHandle ovf c info).Ends (.ok info')) : Follows m (t ++ [c]) info' := by
  have hne := hc.not_skipped
  obtain ⟨hopr, hflag, hlen⟩ := numHandle_lags hnum
  obtain ⟨hlags, hone⟩ := h.lags
  refine ⟨h.le, ?_, ?_, ?_, ?_, ?_⟩
  · rw [core_append_of_mem hne, endsInDigit_append]
    exact iff_of_true hflag hc
  · have := h.brackets
    simpa [hopr, List.count_append, List.count_singleton, hne.2.1, hne.2.2] using this
  · rw [core_append_of_mem hne, misused_append]
    rintro (hmis | ⟨hmul, -⟩)
    · exact h.misused hmis
    · exfalso
      revert hc
      rcases hmul with rfl | rfl | rfl <;> decide
  · have hf := info.flag.owed_le
    have hm := h.le
    -- a digit behind a digit replaces a number, and one behind an operator adds one
    have hm' : m = 1 → 1 ≤ operators info.opr := fun h => hone (Or.inl h)
    simp only [hopr, hflag, Flag.owed]
    omega
  · rw [hopr, hflag]
    rintro (h | ⟨h, -⟩)
    · exact hone (Or.inl h)
    · simp at h

lemma Follows.blank (h : Follows m t info) (hc : IsBlank c) : Follows m (t ++ [c]) info := by
  have hne : c ≠ '(' ∧ c ≠ ')' := by rcases hc with rfl | rfl | rfl <;> decide
  have hcore : core (t ++ [c]) = core t := core_append_of_not (by simp [hc])
  refine ⟨h.le, hcore ▸ h.flag, ?_, hcore ▸ h.misused, hcore ▸ h.lags⟩
  have := h.brackets
  simpa [List.count_append, List.count_singleton, hne] using this

lemma Follows.openBracket (h : Follows m t info) :
    Follows m (t ++ ['(']) { info with opr := '(' :: info.opr } := by
  have hcore : core (t ++ ['(']) = core t := core_append_of_not (by decide)
  refine ⟨h.le, hcore ▸ h.flag, ?_, hcore ▸ h.misused, ?_⟩
  · have := h.brackets
    simp
    omega
  · rw [hcore]
    simpa [Lags, operators] using h.lags

/-- Where an operator is there for sure, no number is owed beyond it. -/
lemma owed_le {t : List Char} (h : m = 1 ∨ info.flag = .OPR ∧ ∃ c ∈ core t, c ≠ '+') :
    info.flag.owed ≤ m := by
  rcases h with rfl | ⟨hflag, -⟩
  · exact info.flag.owed_le
  · simp [hflag, Flag.owed]

lemma Follows.closeBracket (h : Follows m t info) {iret : ℤ} (hret : ¬ iret < 0)
    (hloop : (Comp.loop (bracketHandleBody ovf) info).Ends (.ok (iret, info'))) :
    Follows m (t ++ [')']) info' := by
  have hcore : core (t ++ [')']) = core t := core_append_of_not (by decide)
  obtain ⟨hlags', hflag', hcount'⟩ := bracketLoop_lags hloop hret owed_le h.lags
  refine ⟨h.le, ?_, ?_, hcore ▸ h.misused, ?_⟩
  · rw [hcore, hflag']
    exact h.flag
  · have := h.brackets
    simp
    omega
  · rw [hcore, hflag']
    exact hlags'

lemma IsOpr.core_append (h : IsOpr c) : core (t ++ [c]) = core t ++ [c] :=
  core_append_of_mem h.not_skipped

lemma IsOpr.count_append (h : IsOpr c) :
    (t ++ [c]).count '(' = t.count '(' ∧ (t ++ [c]).count ')' = t.count ')' := by
  rcases h with rfl | rfl | rfl | rfl | rfl <;> simp

/-- A sign changes the stacks as an operator does that has found its first number. -/
lemma Follows.sign (h : Follows m t info) (hflag : info.flag = .OPR) (hc : c = '+' ∨ c = '-')
    {iret : ℤ} (hopr : (oprHandle ovf c info).Ends (.ok (iret, info'))) :
    Follows m (t ++ [c]) info' := by
  have hopr' : IsOpr c := by rcases hc with rfl | rfl <;> simp [IsOpr]
  have hnot : ¬ (c = '*' ∨ c = '/' ∨ c = '%') := by rcases hc with rfl | rfl <;> decide
  have hmis : Misused (core t ++ [c]) → m = 1 := by
    rw [misused_append]
    rintro (hmis | ⟨hmul, -⟩)
    · exact h.misused hmis
    · exact absurd hmul hnot
  obtain ⟨hlags, hone⟩ := h.lags
  have hbrackets := h.brackets
  have hm := h.le
  obtain ⟨num, opr, flag⟩ := info
  obtain rfl : flag = .OPR := hflag
  rcases hc with rfl | rfl
  · obtain ⟨-, rfl⟩ : iret = 0 ∧ info' = ⟨num, opr, .OPR⟩ := by simpa [oprHandle] using hopr
    refine ⟨hm, ?_, ?_, ?_, hlags, ?_⟩
    · rw [hopr'.core_append, endsInDigit_append]
      exact iff_of_false (by simp) hopr'.not_digit
    · simpa [hopr'.count_append] using hbrackets
    · rw [hopr'.core_append]
      exact hmis
    · rw [hopr'.core_append]
      rintro (h | ⟨-, c, hc, hplus⟩)
      · exact hone (Or.inl h)
      · exact hone (Or.inr ⟨rfl, c, by simpa [hplus] using hc, hplus⟩)
  · obtain ⟨-, rfl⟩ : iret = 0 ∧ info' = ⟨⟨0, by decide⟩ :: num, '-' :: opr, .OPR⟩ := by
      simpa [oprHandle] using hopr
    refine ⟨hm, ?_, ?_, ?_, ?_, ?_⟩
    · rw [hopr'.core_append, endsInDigit_append]
      exact iff_of_false (by simp) hopr'.not_digit
    · simpa [hopr'.count_append] using hbrackets
    · rw [hopr'.core_append]
      exact hmis
    · simp only [operators_cons hopr'.ne_open, List.length_cons] at hlags ⊢
      omega
    · simp [operators_cons hopr'.ne_open]

/-- Behind an operator with a number in front of it, from what its loop has left. -/
lemma Follows.push {m' : ℕ} {opr : List Char} (h : Follows m t info) (hc : IsOpr c) (hle : m' ≤ 1)
    (hmis : Misused (core t ++ [c]) → m' = 1) (hpush : info'.opr = c :: opr)
    (hnum : info'.num.length + m' ≤ operators opr + 1) (hflag : info'.flag = .OPR)
    (hcount : info'.opr.count '(' = info.opr.count '(') : Follows m' (t ++ [c]) info' := by
  refine ⟨hle, ?_, ?_, ?_, ?_, ?_⟩
  · rw [hc.core_append, endsInDigit_append]
    exact iff_of_false (by simp [hflag]) hc.not_digit
  · rw [hcount, hc.count_append.1, hc.count_append.2]
    exact h.brackets
  · rw [hc.core_append]
    exact hmis
  · rw [hpush, operators_cons hc.ne_open, hflag]
    simpa [Flag.owed] using hnum
  · simp [hpush, operators_cons hc.ne_open]

/-- An operator that finds no number in front of it is misused. -/
lemma Follows.binary (h : Follows m t info) (hc : IsOpr c)
    (hbinary : info.flag = .NUM ∨ c ≠ '+' ∧ c ≠ '-') {iret : ℤ} (hret : ¬ iret < 0)
    (hopr : (oprHandle ovf c info).Ends (.ok (iret, info'))) :
    ∃ m', m ≤ m' ∧ Follows m' (t ++ [c]) info' := by
  rw [oprHandle_of_binary hbinary, oprPush_ends_iff] at hopr
  cases hflag : info.flag with
  | NUM =>
      have hlags : Lags m 1 (m = 1) info.num info.opr := by
        have hlags := h.lags
        rw [hflag] at hlags
        exact hlags.mono Or.inl
      obtain ⟨opr, hpush, hl, hf, hcount⟩ := oprLoop_lags hc hopr hret (fun h => h.ge) hlags
      refine ⟨m, le_rfl, h.push hc h.le (fun hmis => h.misused ?_) hpush hl.1 hf hcount⟩
      exact (misused_append.1 hmis).resolve_right fun hno => hno.2 (h.flag.1 hflag)
  | OPR =>
      -- the operator takes a number that was not read for it
      have hlags : Lags 0 0 False info.num info.opr := by
        have hlags := h.lags.1
        rw [hflag] at hlags
        exact ⟨by simp only [Flag.owed] at hlags; omega, False.elim⟩
      obtain ⟨opr, hpush, hl, hf, hcount⟩ := oprLoop_lags hc hopr hret False.elim hlags
      exact ⟨1, h.le, h.push hc le_rfl (fun _ => rfl) hpush (by have := hl.1; omega) hf hcount⟩

/-- One more character. -/
lemma Follows.step (h : Follows m t info)
    (hchar : (charHandle ovf c info).Ends (.ok (none, info'))) :
    Known c ∧ ∃ m', m ≤ m' ∧ Follows m' (t ++ [c]) info' := by
  rcases charHandle_none hchar with ⟨hdigit, hnum⟩ | ⟨hopr, iret, hneg, ho⟩ | ⟨hblank, rfl⟩ |
      ⟨rfl, rfl⟩ | ⟨rfl, iret, hneg, hloop⟩
  · exact ⟨Or.inl hdigit, m, le_rfl, h.digit hdigit hnum⟩
  · refine ⟨hopr.known, ?_⟩
    by_cases hbinary : info.flag = .NUM ∨ c ≠ '+' ∧ c ≠ '-'
    · exact h.binary hopr hbinary hneg ho
    · obtain ⟨hflag, hsign⟩ := sign_of_not_binary hbinary
      exact ⟨m, le_rfl, h.sign hflag hsign ho⟩
  · exact ⟨Or.inr (Or.inr (Or.inl hblank)), m, le_rfl, h.blank hblank⟩
  · exact ⟨by simp [Known], m, le_rfl, h.openBracket⟩
  · exact ⟨by simp [Known], m, le_rfl, h.closeBracket hneg hloop⟩

/-- Numbers that are missing stay so. -/
lemma Follows.scan {u : List Char} (h : Follows m t info)
    (hscan : (Calc.scan ovf u info).Ends (.ok (none, info'))) :
    (∀ c ∈ u, Known c) ∧ ∃ m', m ≤ m' ∧ Follows m' (t ++ u) info' := by
  induction u generalizing m t info with
  | nil =>
      obtain rfl : info' = info := by simpa [Calc.scan] using hscan
      exact ⟨by simp, m, le_rfl, by simpa using h⟩
  | cons c u ih =>
      obtain ⟨i, hchar, hrest⟩ := scan_cons_none.1 hscan
      obtain ⟨hc, m₁, hm₁, hfollows⟩ := h.step hchar
      obtain ⟨hknown, m₂, hm₂, hfollows'⟩ := ih hfollows hrest
      exact ⟨by simpa using ⟨hc, hknown⟩, m₂, hm₁.trans hm₂, by simpa using hfollows'⟩

/-- Every prefix that has been read says what it does about the stacks. -/
lemma follows_of_scan (h : (scan ovf t calcInit).Ends (.ok (none, info))) :
    (∀ c ∈ t, Known c) ∧ ∃ m, Follows m t info := by
  obtain ⟨hknown, m, -, hfollows⟩ := follows_nil.scan h
  exact ⟨hknown, m, hfollows⟩

/-! ### Values and errors -/

/-- No number is missing behind a string that a value is returned for. -/
lemma Follows.value (h : Follows m s info)
    (hdrain : (Comp.loop (drainBody ovf) info).Ends (.ok (none, info'))) :
    m ≠ 1 ∧ s.count ')' = s.count '(' ∧ (EndsInDigit (core s) ∨ ∀ c ∈ core s, c = '+') := by
  obtain ⟨hnot, hcount⟩ := drainLoop_lags hdrain owed_le h.lags
  refine ⟨fun hm => hnot (Or.inl hm), by have := h.brackets; omega, ?_⟩
  cases hflag : info.flag with
  | NUM => exact Or.inl (h.flag.1 hflag)
  | OPR =>
      right
      by_contra hplus
      push Not at hplus
      exact hnot (Or.inr ⟨hflag, hplus⟩)

/-- What `calc_main` returns a value for is loose. -/
lemma loose_of_value (h : (scan ovf s calcInit).Ends (.ok (none, info)))
    (hdrain : (Comp.loop (drainBody ovf) info).Ends (.ok (none, info'))) : Loose s := by
  obtain ⟨hknown, m, hfollows⟩ := follows_of_scan h
  obtain ⟨hmissing, hcount, hends⟩ := hfollows.value hdrain
  refine ⟨hknown, ⟨?_, hcount⟩, fun hmis => hmissing (hfollows.misused hmis), hends⟩
  rintro t u rfl
  obtain ⟨i, ht, -⟩ := scan_append_none.1 h
  obtain ⟨-, m, hfollows⟩ := follows_of_scan ht
  have := hfollows.brackets
  omega

/-- An error exit is taken for a string that is not loose, or after a short call. -/
lemma not_loose_or_short (h : ErrorExit ovf s) :
    ¬ Loose s ∨ ∃ caller ≠ .bracket, ∃ info, Calls ovf s caller info ∧ Short info := by
  by_cases hloose : Loose s
  · right
    rcases errorExit_iff.1 h with ⟨t, c, u, i, rfl, -, hc⟩ | ⟨start, i, hstart, hrounds, hnil⟩ |
      ⟨start, i, hstart, hrounds, hopen⟩ | ⟨caller, i, hcalls, hfails⟩
    · exact absurd (hloose.known c (by simp)) hc
    · exfalso
      obtain ⟨t, u, rfl, ht⟩ := hstart
      have hcount := (hrounds.frame (by simp)).2
      obtain ⟨-, m, hfollows⟩ := follows_of_scan ht
      have hbrackets := hfollows.brackets
      have hle := hloose.balanced.1 (t ++ [')']) u (by simp)
      rw [hnil] at hcount
      simp at hle hcount
      omega
    · exfalso
      have hcount := (hrounds.frame (by simp)).2
      obtain ⟨-, m, hfollows⟩ := follows_of_scan hstart
      have hbrackets := hfollows.brackets
      have heq := hloose.balanced.2
      obtain ⟨opr, hopr⟩ : ∃ opr, i.opr = '(' :: opr := List.head?_eq_some_iff.1 hopen
      rw [hopr, List.count_cons_self] at hcount
      omega
    · obtain ⟨hcaller, hshort⟩ := (fails_iff hcalls.2).1 hfails
      exact ⟨caller, hcaller, i, hcalls, hshort⟩
  · exact Or.inl hloose

/-- A blank does not end a number. -/
example : (calcMain (fun _ => .error .overflow) calcInit ['1', ' ', '2']).Ends
    (.ok (12, ⟨[], [], .NUM⟩)) := ⟨3, rfl⟩

end Calc

end DemoClass
