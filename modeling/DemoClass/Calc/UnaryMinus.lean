import DemoClass.Calc.Minuses

/-!
# The law of the unary minus

In front of an operand `-` is pushed as the operator of a subtraction from 0, below the
operators that follow the operand and above those in front of it.  So a `*`, `/` or `%`
behind the operand is applied before the minus, and what this gives may not fit into an
`int` where the value with the minus does; and if one stands in front of the operand, too,
it is applied last.  In all other cases `-x` is worth as much as `(0-x)`.
-/

namespace DemoClass

namespace Calc

open Precedence (Frame Stops)

/-- An operand `-x` of an expression may be replaced by `(0-x)`, where nothing overflows
and nothing is divided by zero with the brackets. -/
def MinusLaw (ovf : ℤ → Except Fault CInt) (L x R : List Char) : Prop :=
  Expression (withMinus L x R) → AtOperand L → Operand x → (∀ c ∈ R.head?, ¬ IsDigit c) →
    Smooth ovf (withBrackets L x R) →
    ∃ v info info', (calcMain ovf calcInit (withMinus L x R)).Ends (.ok (v, info)) ∧
      (calcMain ovf calcInit (withBrackets L x R)).Ends (.ok (v, info'))

/-- All literals and operations fit, and nothing is divided by zero, also when the `*`, `/`
and `%` behind an operand are applied before its minus. -/
def InOrder (L x R : List Char) : Prop := Exact.RunFits (withMinus L x R) ⟨.start, []⟩

instance (L x R : List Char) : Decidable (InOrder L x R) :=
  inferInstanceAs (Decidable (Exact.RunFits _ _))

/-- The two expressions have the same exact value. -/
lemma exactValue_withBrackets {L x R : List Char} {v : ℤ} (hL : AtOperand L) (hx : Operand x)
    (hR : ∀ c ∈ R.head?, ¬ IsDigit c) (h : ¬ (Tight (lastBefore L) ∧ Tight (firstAfter R)))
    (hv : exactValue (withMinus L x R) = some v) : exactValue (withBrackets L x R) = some v := by
  rw [exactValue, withMinus, Exact.run_append, Option.bind_assoc] at hv
  obtain ⟨⟨cur, F⟩, hrunL, hv⟩ := Option.bind_eq_some_iff.1 hv
  have hprec : Exact.Precedes L ⟨cur, F⟩ := Exact.run_precedes hrunL
  obtain rfl : cur = .start := Exact.eq_start_of_atOperand hL hprec
  obtain ⟨k, cur', y, hy, hrunx⟩ := Exact.run_operand hx
  have hM := Exact.delays_minuses (k + 1)
  rw [Exact.run_withMinus hy hrunx hR] at hv
  rw [exactValue, withBrackets, Exact.run_append, hrunL, Option.bind_some,
    Exact.run_withBrackets hy hrunx]
  -- the minuses may wait below what binds tighter, or nothing that binds tighter follows
  by_cases hF : Stops (fun c : Opr => opr2level c.1) 2 F
  · exact Exact.Behind.run hM hF .value hv
  · have hnot : ¬ Tight (firstAfter R) := fun hafter => h ⟨hprec.tight rfl hF, hafter⟩
    rwa [← Exact.run_of_not_tight hM hnot]

/-- Where nothing that binds tighter follows, the minus is applied first anyway. -/
lemma inOrder_of_not_tight {L x R : List Char} (hexpr : Expression (withMinus L x R))
    (hL : AtOperand L) (hx : Operand x) (hR : ∀ c ∈ R.head?, ¬ IsDigit c)
    (hafter : ¬ Tight (firstAfter R)) (hfits : Exact.RunFits (withBrackets L x R) ⟨.start, []⟩) :
    InOrder L x R := by
  obtain ⟨v, hv⟩ := Exact.exactValue_expression hexpr
  rw [exactValue, withMinus, Exact.run_append, Option.bind_assoc] at hv
  obtain ⟨⟨cur, F⟩, hrunL, -⟩ := Option.bind_eq_some_iff.1 hv
  obtain rfl : cur = .start := Exact.eq_start_of_atOperand hL (Exact.run_precedes hrunL)
  obtain ⟨k, cur', y, hy, hrunx⟩ := Exact.run_operand hx
  -- with the brackets
  obtain ⟨hfitsL, hrest⟩ := (Exact.runFits_append hrunL).1 hfits
  have hbefore : Exact.RunFits (x ++ ')' :: R) ⟨.start, .op 0 minus :: .bracket :: F⟩ :=
    hrest.2.2.2
  obtain ⟨hfitsx, hclose, hfitsR⟩ := (Exact.runFits_append (hrunx _)).1 hbefore
  rw [Exact.minuses_append] at hclose hfitsR
  have hminuses : AppliesFit 0 y (minuses (k + 1) ++ .bracket :: F) := (hclose.value hy).2 rfl
  have hred : applyFrom 0 y (minuses (k + 1) ++ .bracket :: F) =
      ((fun v => -v)^[k + 1] y, .bracket :: F) :=
    (Exact.delays_minuses (k + 1)).reduce_lt (by decide) y (.bracket :: F)
  rw [Exact.step_close, Exact.closeBracket_of_value hy hred] at hfitsR
  -- with the minus alone
  have hdone := Exact.runFits_of_not_tight hminuses hafter hfitsR
  have hafterx : Exact.RunFits (x ++ R) ⟨.start, .op 0 minus :: F⟩ := by
    refine (Exact.runFits_append (hrunx _)).2 ⟨(Exact.scanFits_operand hx _ _).1 hfitsx, ?_⟩
    rw [Exact.minuses_append]
    rcases cur' with _ | w | w
    · simp [Cur.value] at hy
    · obtain rfl : w = y := by simpa [Cur.value] using hy
      exact (Exact.runFits_digits_done hR).2 hdone
    · obtain rfl : w = y := by simpa [Cur.value] using hy
      exact hdone
  exact (Exact.runFits_append hrunL).2 ⟨hfitsL, trivial, hafterx⟩

/-- The law holds where nothing overflows in the order of the code, and `*`, `/` or `%` does
not stand on both sides. -/
lemma minusLaw_of_inOrder (ovf : ℤ → Except Fault CInt) {L x R : List Char}
    (h : ¬ (Tight (lastBefore L) ∧ Tight (firstAfter R))) (horder : InOrder L x R) :
    MinusLaw ovf L x R := by
  intro hexpr hL hx hR hsmooth
  obtain ⟨v, hv⟩ := Exact.exactValue_expression hexpr
  have hv' := exactValue_withBrackets hL hx hR h hv
  exact ⟨v, _, _, calcMain_exact horder hv, calcMain_exact ((smooth_iff hv').1 hsmooth) hv'⟩

lemma minusLaw_of_not_tight (ovf : ℤ → Except Fault CInt) {L x R : List Char}
    (hafter : ¬ Tight (firstAfter R)) : MinusLaw ovf L x R := by
  intro hexpr hL hx hR hsmooth
  have hboth : ¬ (Tight (lastBefore L) ∧ Tight (firstAfter R)) := fun h => hafter h.2
  obtain ⟨v, hv⟩ := Exact.exactValue_expression hexpr
  have hfits := (smooth_iff (exactValue_withBrackets hL hx hR hboth hv)).1 hsmooth
  have horder := inOrder_of_not_tight hexpr hL hx hR hafter hfits
  exact minusLaw_of_inOrder ovf hboth horder hexpr hL hx hR hsmooth

lemma expression_digit {d : Char} (hd : IsDigit d) : Expression [d] :=
  .lit (by simp) (by simpa using hd)

/-- What refutes the law for digits and operators `p b -d c e /g`. -/
lemma digits_refute (ovf : ℤ → Except Fault CInt) {p b d c e g : Char} (v w : ℤ)
    (hchars : (IsDigit p ∧ IsOpr b) ∧ IsDigit d ∧ IsOpr c ∧ IsDigit e ∧ IsDigit g)
    (hv : exactValue (withMinus [p, b] [d] [c, e, '/', g]) = some v ∧
      InOrder [p, b] [d] [c, e, '/', g])
    (hw : exactValue (withBrackets [p, b] [d] [c, e, '/', g]) = some w ∧
      Exact.RunFits (withBrackets [p, b] [d] [c, e, '/', g]) ⟨.start, []⟩)
    (hne : v ≠ w) :
    InOrder [p, b] [d] [c, e, '/', g] ∧ ¬ MinusLaw ovf [p, b] [d] [c, e, '/', g] := by
  refine ⟨hv.2, fun hlaw => ?_⟩
  obtain ⟨⟨hp, hb⟩, hd, hc, he, hg⟩ := hchars
  have hrest : Expression ([e] ++ '/' :: [g]) :=
    .bin (expression_digit he) (by decide) (expression_digit hg)
  have hexpr : Expression ([p] ++ b :: '-' :: ([d] ++ c :: ([e] ++ '/' :: [g]))) :=
    .bin (expression_digit hp) hb
      (.sign (Or.inr rfl) (.bin (expression_digit hd) hc hrest))
  have hL : AtOperand ([p] ++ [b]) := by
    intro a ha
    obtain rfl : b = a := by simpa only [List.filter_append, List.filter_cons, hb.not_blank,
      not_false_iff, decide_true, if_true, List.filter_nil, List.getLast?_concat,
      Option.mem_some_iff] using ha
    exact Or.inr hb
  have hR : ∀ a ∈ [c, e, '/', g].head?, ¬ IsDigit a := by
    intro a ha
    obtain rfl : c = a := by simpa using ha
    exact hc.not_digit
  obtain ⟨u, info, info', hminus, hbrackets⟩ := hlaw hexpr hL (.lit (by simp) (by simpa using hd))
    hR ((smooth_iff hw.1).2 hw.2)
  have h₁ := hminus.unique (calcMain_exact hv.2 hv.1)
  have h₂ := hbrackets.unique (calcMain_exact hw.2 hw.1)
  obtain ⟨rfl, -⟩ : u = v ∧ _ := by simpa using h₁
  obtain ⟨rfl, -⟩ : u = w ∧ _ := by simpa using h₂
  exact hne rfl

lemma isOpr_of_level_two {c : Char} (h : opr2level c = 2) : IsOpr c := by
  rcases Exact.eq_of_level_two h with rfl | rfl | rfl <;> decide

lemma lastBefore_concat (L : List Char) {b : Char} (hb : IsOpr b) (h : opr2level b = 2) :
    lastBefore (L ++ [b]) = some b := by
  have hplus : b ≠ '+' := by
    rintro rfl
    exact absurd h (by decide)
  simp [lastBefore, hb.not_blank, hplus]

lemma firstAfter_cons {c : Char} (hc : IsOpr c) (R : List Char) :
    firstAfter (c :: R) = some c := by
  simp [firstAfter, hc.not_blank]

/-- Any two operators of the level 2 on both sides refute the law. -/
lemma exists_not_minusLaw (ovf : ℤ → Except Fault CInt) {b c : Char} (hb : opr2level b = 2)
    (hc : opr2level c = 2) : ∃ p d e g, InOrder [p, b] [d] [c, e, '/', g] ∧
      ¬ MinusLaw ovf [p, b] [d] [c, e, '/', g] := by
  rcases Exact.eq_of_level_two hb with rfl | rfl | rfl
  · rcases Exact.eq_of_level_two hc with rfl | rfl | rfl
    · exact ⟨'6', '2', '3', '4', digits_refute ovf (-6) (-9)
        (by decide) (by decide) (by decide) (by decide)⟩
    · exact ⟨'2', '3', '2', '1', digits_refute ovf (-2) (-3)
        (by decide) (by decide) (by decide) (by decide)⟩
    · exact ⟨'2', '3', '2', '1', digits_refute ovf (-2) 0
        (by decide) (by decide) (by decide) (by decide)⟩
  · rcases Exact.eq_of_level_two hc with rfl | rfl | rfl
    · exact ⟨'6', '2', '3', '1', digits_refute ovf (-1) (-9)
        (by decide) (by decide) (by decide) (by decide)⟩
    · exact ⟨'8', '4', '2', '1', digits_refute ovf (-4) (-1)
        (by decide) (by decide) (by decide) (by decide)⟩
    · exact ⟨'9', '5', '3', '1', digits_refute ovf (-4) (-1)
        (by decide) (by decide) (by decide) (by decide)⟩
  · rcases Exact.eq_of_level_two hc with rfl | rfl | rfl
    · exact ⟨'5', '2', '2', '1', digits_refute ovf 1 2
        (by decide) (by decide) (by decide) (by decide)⟩
    · exact ⟨'5', '4', '2', '1', digits_refute ovf 1 0
        (by decide) (by decide) (by decide) (by decide)⟩
    · exact ⟨'5', '5', '3', '1', digits_refute ovf 1 0
        (by decide) (by decide) (by decide) (by decide)⟩

/-- The product is applied in front of a slash. -/
lemma oprHandle_slash {ovf : ℤ → Except Fault CInt} {a b z m : CInt}
    (h : (apply ovf '*' a b).Ends (.ok (some m))) :
    (oprHandle ovf '/' ⟨[b, a, z], ['*', '-'], .NUM⟩).Ends (.ok (0, ⟨[m, z], ['/', '-'], .OPR⟩)) := by
  have hround : (oprHandleBody ovf '/' ⟨[b, a, z], ['*', '-'], .OPR⟩).Ends
      (.ok (.inl ⟨[m, z], ['-'], .OPR⟩)) := by
    rw [oprHandleBody_of_le (by decide)]
    exact (doStack_ends_iff.2 (.value h)).bind (by simp)
  have hpush : (oprHandleBody ovf '/' ⟨[m, z], ['-'], .OPR⟩).Ends
      (.ok (.inr (0, ⟨[m, z], ['/', '-'], .OPR⟩))) :=
    oprHandleBody_push (show opr2level '-' < opr2level '/' by decide)
  rw [oprHandle_of_binary (Or.inl rfl), oprPush_ends_iff]
  exact hround.loop_inl hpush.loop_inr

/-- Behind `/2` a half is subtracted from 0. -/
lemma drain_half (ovf : ℤ → Except Fault CInt) (m : CInt) : ∃ v : CInt, v.1 = 0 - m.1.tdiv 2 ∧
    (Comp.loop (drainBody ovf) ⟨[⟨2, by decide⟩, m, ⟨0, by decide⟩], ['/', '-'], .NUM⟩).Ends
      (.ok (none, ⟨[v], [], .NUM⟩)) := by
  obtain ⟨hlow, hhigh⟩ := m.2
  have habs : (m.1.tdiv 2).natAbs = m.1.natAbs / 2 := Int.natAbs_tdiv m.1 2
  have hhalf : InInt (m.1.tdiv 2) := ⟨by omega, by omega⟩
  have hdiff : InInt (0 - m.1.tdiv 2) := ⟨by omega, by omega⟩
  have hquot : apply ovf '/' m ⟨2, by decide⟩ = pure (some ⟨m.1.tdiv 2, hhalf⟩) := by
    simp [apply, hhalf, toCInt_of]
  have hsub : apply ovf '-' ⟨0, by decide⟩ ⟨m.1.tdiv 2, hhalf⟩ =
      pure (some ⟨0 - m.1.tdiv 2, hdiff⟩) := by
    simp only [apply, toCInt_of hdiff]
    simp
  refine ⟨⟨0 - m.1.tdiv 2, hdiff⟩, rfl, ?_⟩
  refine Comp.Ends.loop_inl (t := ⟨[⟨m.1.tdiv 2, hhalf⟩, ⟨0, by decide⟩], ['-'], .NUM⟩) ?_ ?_
  · rw [drainBody_of_ne (by decide), doStack_eq hquot]
    simp
  refine Comp.Ends.loop_inl (t := ⟨[⟨0 - m.1.tdiv 2, hdiff⟩], [], .NUM⟩) ?_ ?_
  · rw [drainBody_of_ne (by decide), doStack_eq hsub]
    simp
  exact Comp.Ends.loop_inr (Comp.ends_pure.2 rfl)

/-- What `calc_main` makes of `/2` behind 65536 and 32768 with `*` and a minus. -/
lemma calcMain_of_overflow {ovf : ℤ → Except Fault CInt} {t : List Char} {v : ℤ} {info : CalcInfo}
    (hscan : (scan ovf t calcInit).Ends
      (.ok (none, ⟨[⟨32768, by decide⟩, ⟨65536, by decide⟩, ⟨0, by decide⟩], ['*', '-'], .NUM⟩)))
    (h : (calcMain ovf calcInit (t ++ ['/', '2'])).Ends (.ok (v, info))) :
    ∃ m : CInt, v = 0 - m.1.tdiv 2 := by
  have hmul : apply ovf '*' ⟨65536, by decide⟩ ⟨32768, by decide⟩ =
      some <$> Comp.ofExcept (ovf 2147483648) := by
    simp [apply, toCInt, InInt]
  cases hovf : ovf 2147483648 with
  | error e =>
      have hcalls : Calls ovf (t ++ ['/', '2']) (.opr '/')
          ⟨[⟨32768, by decide⟩, ⟨65536, by decide⟩, ⟨0, by decide⟩], ['*', '-'], .OPR⟩ :=
        ⟨⟨_, ⟨t, ['2'], _, rfl, by decide, hscan, Or.inl rfl, rfl⟩, .refl _ _⟩, '*', rfl,
          show ¬ opr2level '*' < opr2level '/' by decide⟩
      have hfault : (apply ovf '*' ⟨65536, by decide⟩ ⟨32768, by decide⟩).Ends (.error e) := by
        rw [hmul, hovf]
        exact ⟨0, rfl⟩
      exact absurd (h.unique (hcalls.fault hfault.bind_fault)) (by simp)
  | ok m =>
      have hvalue : (apply ovf '*' ⟨65536, by decide⟩ ⟨32768, by decide⟩).Ends
          (.ok (some m)) := by
        rw [hmul, hovf]
        exact ⟨0, rfl⟩
      have htwo : (charHandle ovf '2' ⟨[m, ⟨0, by decide⟩], ['/', '-'], .OPR⟩).Ends
          (.ok (none, ⟨[⟨2, by decide⟩, m, ⟨0, by decide⟩], ['/', '-'], .NUM⟩)) := ⟨0, rfl⟩
      have hread : (scan ovf (t ++ ['/', '2']) calcInit).Ends
          (.ok (none, ⟨[⟨2, by decide⟩, m, ⟨0, by decide⟩], ['/', '-'], .NUM⟩)) :=
        scan_append_ends hscan (scan_cons_ends (charHandle_opr_ends (by decide)
          (oprHandle_slash hvalue)) (scan_cons_ends htwo (Comp.ends_pure.2 rfl)))
      obtain ⟨w, hw, hloop⟩ := drain_half ovf m
      have hends : (calcMain ovf calcInit (t ++ ['/', '2'])).Ends (.ok (w.1, ⟨[], [], .NUM⟩)) :=
        hread.bind (hloop.bind (by simp))
      obtain ⟨hv, -⟩ : v = w.1 ∧ _ = _ := by simpa using h.unique hends
      exact ⟨m, hv.trans hw⟩

/-- What refutes the law for 65536 and an operator that leaves it, times 32768, over 2: the
product fits with the minus only. -/
lemma overflow_refutes (ovf : ℤ → Except Fault CInt) {t : List Char}
    (hexpr : Expression (withMinus [] ['6', '5', '5', '3', '6'] (t ++ ['/', '2'])))
    (hR : ∀ a ∈ (t ++ ['/', '2']).head?, ¬ IsDigit a)
    (hscan : (scan ovf ('-' :: (['6', '5', '5', '3', '6'] ++ t)) calcInit).Ends
      (.ok (none, ⟨[⟨32768, by decide⟩, ⟨65536, by decide⟩, ⟨0, by decide⟩], ['*', '-'], .NUM⟩)))
    (hw : exactValue (withBrackets [] ['6', '5', '5', '3', '6'] (t ++ ['/', '2'])) =
        some (-1073741824) ∧
      Exact.RunFits (withBrackets [] ['6', '5', '5', '3', '6'] (t ++ ['/', '2'])) ⟨.start, []⟩) :
    ¬ MinusLaw ovf [] ['6', '5', '5', '3', '6'] (t ++ ['/', '2']) := by
  intro hlaw
  have hL : AtOperand [] := by
    rintro c hc
    simp at hc
  have hx : Operand ['6', '5', '5', '3', '6'] := .lit (by simp) (by simp [IsDigit])
  obtain ⟨v, info, info', hminus, hbrackets⟩ :=
    hlaw hexpr hL hx hR ((smooth_iff hw.1).2 hw.2)
  obtain ⟨m, rfl⟩ := calcMain_of_overflow hscan (by simpa [withMinus] using hminus)
  obtain ⟨hvalue, -⟩ : 0 - m.1.tdiv 2 = -1073741824 ∧ _ = _ := by
    simpa using hbrackets.unique (calcMain_exact hw.2 hw.1)
  -- of an `int` only the least one has such a half, with the wrong sign
  have habs : (m.1.tdiv 2).natAbs = m.1.natAbs / 2 := Int.natAbs_tdiv m.1 2
  obtain ⟨hlow, hhigh⟩ := m.2
  have hm : m.1 = -2147483648 := by omega
  rw [hm] at hvalue
  exact absurd hvalue (by decide)

/-- Any operator of the level 2 behind the operand refutes the law where the order matters. -/
lemma exists_not_inOrder (ovf : ℤ → Except Fault CInt) {c : Char} (hc : opr2level c = 2) :
    ∃ x R, firstAfter R = some c ∧ ¬ InOrder [] x R ∧ ¬ MinusLaw ovf [] x R := by
  have hx : Expression ['6', '5', '5', '3', '6'] := .lit (by simp) (by simp [IsDigit])
  have htimes : Expression ['3', '2', '7', '6', '8', '/', '2'] :=
    .bin (s := ['3', '2', '7', '6', '8']) (.lit (by simp) (by simp [IsDigit])) (by decide)
      (expression_digit (by decide))
  rcases Exact.eq_of_level_two hc with rfl | rfl | rfl
  · refine ⟨['6', '5', '5', '3', '6'], ['*', '3', '2', '7', '6', '8'] ++ ['/', '2'], rfl,
      by decide, overflow_refutes ovf ?_ (by simp [IsDigit]) ⟨3, rfl⟩ (by decide)⟩
    exact .sign (Or.inr rfl) (.bin hx (by decide) htimes)
  · refine ⟨['6', '5', '5', '3', '6'], ['/', '1', '*', '3', '2', '7', '6', '8'] ++ ['/', '2'], rfl,
      by decide, overflow_refutes ovf ?_ (by simp [IsDigit]) ⟨3, rfl⟩ (by decide)⟩
    exact .sign (Or.inr rfl) (.bin hx (by decide)
      (.bin (s := ['1']) (expression_digit (by decide)) (by decide) htimes))
  · refine ⟨['6', '5', '5', '3', '6'],
      ['%', '6', '5', '5', '3', '7', '*', '3', '2', '7', '6', '8'] ++ ['/', '2'], rfl, by decide,
      overflow_refutes ovf ?_ (by simp [IsDigit]) ⟨3, rfl⟩ (by decide)⟩
    have hy : Expression ['6', '5', '5', '3', '7'] := .lit (by simp) (by simp [IsDigit])
    exact .sign (Or.inr rfl) (.bin hx (by decide)
      (.bin (s := ['6', '5', '5', '3', '7']) hy (by decide) htimes))

/-- **When the law of the unary minus holds.**  Where the order does not matter for what fits, it
holds for all operands between the same two characters exactly if `*`, `/` or `%` does not
stand on both sides, and where it does, exactly if none of them stands behind the operand. -/
theorem minusLaw_iff (ovf : ℤ → Except Fault CInt) (before after : Option Char) :
    ((∀ L x R, lastBefore L = before → firstAfter R = after → InOrder L x R →
      MinusLaw ovf L x R) ↔ ¬ (Tight before ∧ Tight after)) ∧
    ((∀ L x R, firstAfter R = after → ¬ InOrder L x R → MinusLaw ovf L x R) ↔
      ¬ Tight after) := by
  refine ⟨⟨?_, ?_⟩, ⟨?_, ?_⟩⟩
  · rintro hlaw ⟨⟨b, rfl, hb⟩, c, rfl, hc⟩
    obtain ⟨p, d, e, g, horder, hnot⟩ := exists_not_minusLaw ovf hb hc
    exact hnot (hlaw _ _ _ (lastBefore_concat [p] (isOpr_of_level_two hb) hb)
      (firstAfter_cons (isOpr_of_level_two hc) _) horder)
  · rintro h L x R rfl rfl horder
    exact minusLaw_of_inOrder ovf h horder
  · rintro hlaw ⟨c, rfl, hc⟩
    obtain ⟨x, R, hafter, horder, hnot⟩ := exists_not_inOrder ovf hc
    exact hnot (hlaw [] x R hafter horder)
  · rintro h L x R rfl -
    exact minusLaw_of_not_tight ovf h

/-- `-2*3` is worth as much as `(0-2)*3`. -/
theorem minusLaw_iff_two : ∃ v info info',
    (calcMain (fun _ => .error .overflow) calcInit (withMinus [] ['2'] ['*', '3'])).Ends
      (.ok (v, info)) ∧
    (calcMain (fun _ => .error .overflow) calcInit (withBrackets [] ['2'] ['*', '3'])).Ends
      (.ok (v, info')) := by
  have hexpr : Expression (withMinus [] ['2'] ['*', '3']) :=
    .sign (Or.inr rfl) (.bin (s := ['2']) (expression_digit (by decide)) (by decide)
      (expression_digit (by decide)))
  have hx : Operand ['2'] := .lit (by simp) (by simp [IsDigit])
  have hv : exactValue (withBrackets [] ['2'] ['*', '3']) = some (-6) := by decide
  refine (minusLaw_iff _ none (some '*')).1.2 ?_ [] ['2'] ['*', '3'] rfl rfl (by decide) hexpr ?_ hx
    ?_ ((smooth_iff hv).2 (by decide))
  · rintro ⟨⟨c, hc, -⟩, -⟩
    simp at hc
  · rintro c hc
    simp at hc
  · rintro c hc
    obtain rfl : '*' = c := by simpa using hc
    decide

/-- Six divided by -2, times 3, is -1 with the minus and -9 with the brackets. -/
theorem not_minusLaw_div_mul :
    ¬ MinusLaw (fun _ => .error .overflow) ['6', '/'] ['2'] ['*', '3', '/', '1'] :=
  (digits_refute _ (-1) (-9) (by decide) (by decide) (by decide) (by decide)).2

end Calc

end DemoClass
