import DemoClass.Calc.Division
import DemoClass.Calc.OprStack

/-!
# When `calc_main` returns

A run faults at a digit or in a call of `do_stack`, and it goes on forever in the loop of
`bracket_handle`.  So whether it returns is a matter of the stacks in front of each digit and
of each call (`returns_iff`).
-/

namespace DemoClass

namespace Calc

variable (ovf : ℤ → Except Fault CInt)

/-- A result that does not fit, where this ends the program. -/
def Overflows (n : ℤ) : Prop := ¬ InInt n ∧ ∃ e, ovf n = .error e

/-- With the digit `c` the number on top gets too large. -/
def DigitOverflows (c : Char) (info : CalcInfo) : Prop :=
  info.flag = .NUM ∧ ∃ prev_n ∈ info.num.head?, Overflows ovf (prev_n.1 * 10) ∨
    ∃ m, (toCInt ovf (prev_n.1 * 10)).Ends (.ok m) ∧ Overflows ovf (digit c + m.1)

/-- `do_stack` finds an operation that overflows or traps. -/
def Breaks (info : CalcInfo) : Prop :=
  ∃ b a num c opr, info.num = b :: a :: num ∧ info.opr = c :: opr ∧
    (c = '+' ∧ Overflows ovf (a.1 + b.1) ∨ c = '-' ∧ Overflows ovf (a.1 - b.1) ∨
      c = '*' ∧ Overflows ovf (a.1 * b.1) ∨
      (c = '/' ∨ c = '%') ∧ a.1 = -2147483648 ∧ b.1 = -1 ∨ c = '%' ∧ b.1 = 0)

/-- The stacks are in order in front of each digit and of each call of `do_stack`. -/
structure RunsThrough (s : List Char) : Prop where
  digit : ∀ t c u info, s = t ++ c :: u → IsDigit c →
    (scan ovf t calcInit).Ends (.ok (none, info)) → ¬ DigitOverflows ovf c info
  call : ∀ caller info, Calls ovf s caller info → ¬ Breaks ovf info
  bracket : ∀ info, Calls ovf s .bracket info → 2 ≤ info.num.length

variable {ovf} {s t u : List Char} {c : Char} {info info' : CalcInfo} {caller : Caller}

/-! ### Faults -/

lemma overflows_iff {n : ℤ} : Overflows ovf n ↔ ∃ e, (toCInt ovf n).Ends (.error e) := by
  rw [Overflows, toCInt]
  split_ifs with hfits
  · simp [hfits]
  · simp [hfits, eq_comm]

lemma toCInt_bind_fault_iff {α : Type} {n : ℤ} {f : CInt → Comp Fault α} :
    (∃ e, (toCInt ovf n >>= f).Ends (.error e)) ↔ Overflows ovf n ∨
      ∃ m, (toCInt ovf n).Ends (.ok m) ∧ ∃ e, (f m).Ends (.error e) := by
  rw [overflows_iff]
  constructor
  · rintro ⟨e, h⟩
    rcases Comp.ends_bind_iff.1 h with ⟨m, hm, hf⟩ | ⟨e', he, -⟩
    · exact Or.inr ⟨m, hm, e, hf⟩
    · exact Or.inl ⟨e', he⟩
  · rintro (⟨e, he⟩ | ⟨m, hm, e, hf⟩)
    · exact ⟨e, he.bind_fault⟩
    · exact ⟨e, hm.bind hf⟩

lemma digitOverflows_iff (hc : IsDigit c) :
    DigitOverflows ovf c info ↔ ∃ e, (numHandle ovf c info).Ends (.error e) := by
  have hfits := hc.inInt
  simp only [numHandle, toCInt_of hfits, pure_bind]
  obtain ⟨num, opr, flag⟩ := info
  cases flag with
  | OPR => simp [DigitOverflows]
  | NUM =>
      cases num with
      | nil => simp [DigitOverflows, toCInt_of hfits]
      | cons prev_n num =>
          simp only [toCInt_bind_fault_iff]
          simp [DigitOverflows]

lemma map_toCInt_fault_iff {n : ℤ} :
    (∃ e, (some <$> toCInt ovf n : Comp Fault (Option CInt)).Ends (.error e)) ↔
      Overflows ovf n := by
  rw [map_eq_pure_bind, toCInt_bind_fault_iff]
  simp

/-- A remainder fits. -/
lemma inInt_tmod {a b : ℤ} (ha : InInt a) : InInt (a.tmod b) := by
  have hle : (a.tmod b).natAbs ≤ a.natAbs := by
    rw [Int.natAbs_tmod]
    exact Nat.mod_le _ _
  obtain ⟨hlow, hhigh⟩ := ha
  by_cases hneg : a < 0
  · have hminus := Int.tmod_nonneg b (show 0 ≤ -a by omega)
    rw [Int.neg_tmod] at hminus
    exact ⟨by omega, by omega⟩
  · have := Int.tmod_nonneg b (not_lt.1 hneg)
    exact ⟨by omega, by omega⟩

lemma apply_fault_iff {a b : CInt} (hc : IsOpr c) :
    (∃ e, (apply ovf c a b).Ends (.error e)) ↔
      (c = '+' ∧ Overflows ovf (a.1 + b.1) ∨ c = '-' ∧ Overflows ovf (a.1 - b.1) ∨
        c = '*' ∧ Overflows ovf (a.1 * b.1) ∨
        (c = '/' ∨ c = '%') ∧ a.1 = -2147483648 ∧ b.1 = -1 ∨ c = '%' ∧ b.1 = 0) := by
  rcases hc with rfl | rfl | rfl | rfl | rfl
  · simp [apply, map_toCInt_fault_iff, -bind_pure_comp]
  · by_cases hzero : b.1 = 0
    · simp [apply, hzero]
    · have htrap := not_inInt_tdiv_iff a.2 hzero
      by_cases hfits : InInt (a.1.tdiv b.1)
      · simp [apply, hzero, hfits, toCInt_of, ← htrap]
      · simp [apply, hzero, hfits, ← htrap]
  · by_cases hzero : b.1 = 0
    · simp [apply, hzero]
    · have htrap := not_inInt_tdiv_iff a.2 hzero
      by_cases hfits : InInt (a.1.tdiv b.1)
      · simp [apply, hzero, hfits, toCInt_of (inInt_tmod a.2), ← htrap]
      · simp [apply, hzero, hfits, ← htrap]
  · simp [apply, map_toCInt_fault_iff, -bind_pure_comp]
  · simp [apply, map_toCInt_fault_iff, -bind_pure_comp]

/-- On an operator `do_stack` faults exactly in an operation that breaks. -/
lemma breaks_iff (htop : ∃ c ∈ info.opr.head?, IsOpr c) :
    Breaks ovf info ↔ ∃ e, (doStack ovf info).Ends (.error e) := by
  constructor
  · rintro ⟨b, a, num, c, opr, hnum, hopr, hbreak⟩
    obtain ⟨c', htop, hc⟩ := htop
    obtain ⟨num', opr', flag⟩ := info
    obtain rfl : num' = b :: a :: num := hnum
    obtain rfl : opr' = c :: opr := hopr
    obtain rfl : c = c' := by simpa using htop
    obtain ⟨e, he⟩ := (apply_fault_iff hc).2 hbreak
    exact ⟨e, he.bind_fault⟩
  · rintro ⟨e, he⟩
    obtain ⟨b, a, num, c, opr, hnum, hopr, happly⟩ := doStack_fault he
    obtain ⟨c', htop, hc⟩ := htop
    obtain rfl : c = c' := by simpa [hopr] using htop
    exact ⟨b, a, num, c, opr, hnum, hopr, (apply_fault_iff hc).1 ⟨e, happly⟩⟩

/-! ### Runs that return -/

/-- Calls are made for operators only. -/
lemma Calls.top_isOpr (h : Calls ovf s caller info) : ∃ c ∈ info.opr.head?, IsOpr c := by
  obtain ⟨⟨start, hstart, hrounds⟩, happ⟩ := h
  exact disciplined_calcInit.top_isOpr hstart hrounds happ

lemma Closes.two_le (h : Closes ovf info.opr info.num) (htop : ∃ c ∈ info.opr.head?, c ≠ '(') :
    2 ≤ info.num.length := by
  obtain ⟨top_c, htop, hopen⟩ := htop
  match info, htop, h with
  | ⟨num, _ :: opr, flag⟩, rfl, h =>
      have hnum := (closes_cons.1 h).resolve_left hopen
      match num, hnum with
      | _ :: _ :: num, _ => exact Nat.le_add_left _ _

lemma Closes.doStack {ret : ℤ} (h : Closes ovf info.opr info.num)
    (htop : ∃ c ∈ info.opr.head?, c ≠ '(') (hdo : DoStack ovf info ret info') :
    Closes ovf info'.opr info'.num := by
  have htwo := h.two_le htop
  obtain ⟨top_c, htop, hopen⟩ := htop
  cases hdo with
  | noNumber => simp at htwo
  | oneNumber => simp at htwo
  | noOpr => simp at htop
  | @zero b a num c opr flag happly =>
      obtain rfl : c = top_c := by simpa using htop
      exact (closes_cons.1 h).resolve_left hopen none happly
  | @value b a v num c opr flag happly =>
      obtain rfl : c = top_c := by simpa using htop
      exact (closes_cons.1 h).resolve_left hopen (some v) happly

/-- The loop of `bracket_handle` stops exactly if each of its calls finds two numbers. -/
lemma closes_iff : Closes ovf info.opr info.num ↔
    ∀ i, Caller.bracket.Rounds ovf info i →
      (∃ top_c ∈ i.opr.head?, Caller.bracket.Applies top_c) → 2 ≤ i.num.length := by
  constructor
  · intro h i hrounds happ
    have hi : Closes ovf i.opr i.num := by
      refine hrounds.invariant (I := fun i => Closes ovf i.opr i.num) ?_ h
      intro i i' ret happ hdo hi
      exact hi.doStack happ hdo
    exact hi.two_le happ
  · intro h
    obtain ⟨num, opr, flag⟩ := info
    induction opr generalizing num with
    | nil => trivial
    | cons c opr ih =>
        rw [closes_cons, or_iff_not_imp_left]
        intro hopen
        have htwo := h _ (.refl _ _) ⟨c, rfl, hopen⟩
        match num, htwo, h with
        | b :: a :: num, _, h =>
            intro r hr
            refine ih _ fun i hrounds happ => ?_
            obtain ⟨n, hn⟩ := hrounds
            exact h i ⟨n + 1, .step (bracketHandleBody_apply hopen hr) hn⟩ happ

lemma closesBrackets_iff_calls : ClosesBrackets ovf s calcInit ↔
    ∀ info, Calls ovf s .bracket info → 2 ≤ info.num.length := by
  rw [closesBrackets_iff]
  constructor
  · rintro h info ⟨⟨start, ⟨t, u, hs, ht⟩, hrounds⟩, happ⟩
    exact closes_iff.1 (h t u start hs ht) info hrounds happ
  · intro h t u i hs ht
    exact closes_iff.2 fun info hrounds happ => h info ⟨⟨i, ⟨t, u, hs, ht⟩, hrounds⟩, happ⟩

/-- **When `calc_main` returns.** -/
theorem returns_iff : (∃ p, (calcMain ovf calcInit s).Ends (.ok p)) ↔ RunsThrough ovf s := by
  constructor
  · rintro ⟨p, hp⟩
    have hnofault : ∀ e, ¬ (calcMain ovf calcInit s).Ends (.error e) := fun e he =>
      absurd (hp.unique he) (by simp)
    refine ⟨fun t c u info hs hc ht hover => ?_, fun caller info hcalls hbreak => ?_, ?_⟩
    · obtain ⟨e, he⟩ := (digitOverflows_iff hc).1 hover
      refine hnofault e (calcMain_fault_of_char hs ht ?_)
      rw [charHandle, if_pos hc]
      exact he.bind_fault
    · obtain ⟨e, he⟩ := (breaks_iff hcalls.top_isOpr).1 hbreak
      exact hnofault e (hcalls.fault he)
    · rw [← closesBrackets_iff_calls, ← halts_scan_iff, ← halts_calcMain_iff]
      exact hp.halts
  · intro h
    have hhalts : (calcMain ovf calcInit s).Halts := by
      rw [halts_calcMain_iff, halts_scan_iff, closesBrackets_iff_calls]
      exact h.bracket
    obtain ⟨e | p, hends⟩ := hhalts
    · rcases calcMain_fault hends with ⟨t, c, u, i, hs, ht, hc, hnum⟩ | ⟨caller, i, hcalls, hdo⟩
      · exact absurd ((digitOverflows_iff hc).2 ⟨e, hnum⟩) (h.digit t c u i hs hc ht)
      · exact absurd ((breaks_iff hcalls.top_isOpr).2 ⟨e, hdo⟩) (h.call caller i hcalls)
    · exact ⟨p, hends⟩

end Calc

end DemoClass
