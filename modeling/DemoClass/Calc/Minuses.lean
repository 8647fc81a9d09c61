import DemoClass.Calc.Smooth
import Mathlib.Data.List.Induction
import Mathlib.Logic.Function.Iterate

/-!
# Minuses that wait

In front of an operand `-` is pushed as the operator of a subtraction from 0, below the
operators that follow the operand and above those in front of it (`run_operand`).  The
minuses may wait below what binds tighter (`Behind.run`), if no such operator waits in front
of them, and they are in time for everything else (`run_of_not_tight`).
-/

namespace DemoClass

namespace Calc

open Precedence (Frame opens Stops Delays Delayed)

/-- What may stand behind a sign: signs in front of a literal or of an expression in
brackets. -/
inductive Operand : List Char → Prop
  | lit {ds : List Char} : ds ≠ [] → (∀ d ∈ ds, IsDigit d) → Operand ds
  | bracket {s : List Char} : Expression s → Operand ('(' :: s ++ [')'])
  | sign {s : List Char} {c : Char} : c = '+' ∨ c = '-' → Operand s → Operand (c :: s)
  | blankLeft {s : List Char} {c : Char} : IsBlank c → Operand s → Operand (c :: s)
  | blankRight {s : List Char} {c : Char} : IsBlank c → Operand s → Operand (s ++ [c])

/-- An operand comes next: at the start, behind `(` and behind an operator. -/
def AtOperand (L : List Char) : Prop :=
  ∀ c ∈ (L.filter fun c => ¬ IsBlank c).getLast?, c = '(' ∨ IsOpr c

/-- The last character in front of a minus, but for blanks and `+`. -/
def lastBefore (L : List Char) : Option Char :=
  (L.filter fun c => ¬ IsBlank c ∧ c ≠ '+').getLast?

/-- The first character behind an operand, but for blanks. -/
def firstAfter (R : List Char) : Option Char := (R.filter fun c => ¬ IsBlank c).head?

/-- It is `*`, `/` or `%`. -/
def Tight (o : Option Char) : Prop := ∃ c ∈ o, opr2level c = 2

/-- The operand `x` with a unary minus. -/
def withMinus (L x R : List Char) : List Char := L ++ '-' :: (x ++ R)

/-- The operand replaced by a subtraction in brackets. -/
def withBrackets (L x R : List Char) : List Char := L ++ '(' :: '0' :: '-' :: (x ++ ')' :: R)

/-- The operator of a unary minus. -/
def minus : Opr := ⟨'-', by decide⟩

/-- The frames that `k` unary minuses leave. -/
def minuses (k : ℕ) : Frames := List.replicate k (.op 0 minus)

namespace Exact

variable {c : Char} {s t L R : List Char} {st st' : Exact} {cur cur' : Cur} {F G G' M A B : Frames}
  {v w : ℤ} {k : ℕ} {φ : ℤ → ℤ}

/-! ### What is below a bracket does not matter -/

lemma opr_above {c : Opr} (h : opr c ⟨cur, G⟩ = some ⟨cur', G'⟩) (F : Frames) :
    opr c ⟨cur, G ++ .bracket :: F⟩ = some ⟨cur', G' ++ .bracket :: F⟩ := by
  cases hv : cur.value with
  | none =>
      by_cases hplus : c.1 = '+'
      · obtain ⟨rfl, rfl⟩ : cur = cur' ∧ G = G' := by simpa [opr, hv, hplus] using h
        simp [opr, hv, hplus]
      · by_cases hminus : c.1 = '-'
        · obtain ⟨rfl, rfl⟩ : cur = cur' ∧ .op 0 c :: G = G' := by
            simpa [opr, hv, hplus, hminus] using h
          simp [opr, hv, hminus]
        · simp [opr, hv, hplus, hminus] at h
  | some v =>
      rw [opr_of_value hv] at h ⊢
      rcases hred : applyFrom (opr2level c.1) v G with ⟨w, G₁⟩
      rw [hred] at h
      -- what is applied stops at the bracket, if not before
      rw [applyFrom, Precedence.reduce_append_bracket hred]
      obtain ⟨rfl, rfl⟩ : .start = cur' ∧ .op w c :: G₁ = G' := by simpa using h
      rfl

lemma closeBracket_above (h : closeBracket ⟨cur, G⟩ = some ⟨cur', G'⟩) (F : Frames) :
    closeBracket ⟨cur, G ++ .bracket :: F⟩ = some ⟨cur', G' ++ .bracket :: F⟩ := by
  cases hv : cur.value with
  | none => simp [closeBracket, hv] at h
  | some v =>
      rcases applyFrom_zero v G with ⟨w, -, hred⟩ | ⟨w, G₁, -, hred⟩
      · simp [closeBracket, hv, hred] at h
      · rw [closeBracket_of_value hv hred] at h
        obtain ⟨rfl, rfl⟩ : .done w = cur' ∧ G₁ = G' := by simpa using h
        exact closeBracket_of_value hv (Precedence.reduce_append_bracket hred F)

lemma step_above (h : step c ⟨cur, G⟩ = some ⟨cur', G'⟩) (F : Frames) :
    step c ⟨cur, G ++ .bracket :: F⟩ = some ⟨cur', G' ++ .bracket :: F⟩ := by
  rcases step_cases h with ⟨hdigit, hstep⟩ | ⟨hopr, hstep⟩ | ⟨hblank, hstep⟩ |
      ⟨rfl, H, hst, hst'⟩ | ⟨rfl, hstep⟩
  · rw [step_digit hdigit]
    cases cur <;> simp_all [digit]
  · rw [step_opr hopr]
    exact opr_above hstep F
  · rw [step_blank hblank]
    cases cur <;> simp_all [blank]
  · obtain ⟨rfl, rfl⟩ : cur = .start ∧ G = H := by simpa using hst
    obtain ⟨rfl, rfl⟩ : cur' = .start ∧ G' = .bracket :: G := by simpa using hst'
    rfl
  · exact closeBracket_above hstep F

lemma run_above (h : run s ⟨cur, G⟩ = some ⟨cur', G'⟩) (F : Frames) :
    run s ⟨cur, G ++ .bracket :: F⟩ = some ⟨cur', G' ++ .bracket :: F⟩ := by
  induction s generalizing cur G with
  | nil =>
      obtain ⟨rfl, rfl⟩ : cur = cur' ∧ G = G' := by simpa [run] using h
      rfl
  | cons c s ih =>
      obtain ⟨⟨cur₁, G₁⟩, hstep, hrest⟩ := Option.bind_eq_some_iff.1 h
      rw [run, step_above hstep]
      exact ih hrest

lemma minuses_append (k : ℕ) (F : Frames) :
    minuses k ++ .op 0 minus :: F = minuses (k + 1) ++ F := by
  rw [minuses, minuses, List.replicate_succ', List.append_assoc]
  rfl

/-- An operand leaves its minuses. -/
lemma run_operand (h : Operand s) : ∃ k cur v, cur.value = some v ∧
    ∀ F, run s ⟨.start, F⟩ = some ⟨cur, minuses k ++ F⟩ := by
  induction h with
  | lit hne hds => exact ⟨0, _, _, rfl, fun F => run_lit hne hds⟩
  | @bracket s hs =>
      obtain ⟨cur, v, F', hrun, hv, hopens⟩ := run_expression hs []
      rcases applyFrom_zero v F' with ⟨w, -, hred⟩ | ⟨w, G, hG, -⟩
      · refine ⟨0, .done w, w, rfl, fun F => ?_⟩
        have hrun' : run ('(' :: s) ⟨.start, F⟩ = some ⟨cur, F' ++ .bracket :: F⟩ :=
          run_above hrun F
        rw [run_append, hrun']
        show (step ')' ⟨cur, F' ++ .bracket :: F⟩).bind (run []) = _
        rw [step_close, closeBracket_of_value hv (Precedence.reduce_append_bracket hred F)]
        rfl
      · simp [hG, opens] at hopens
  | @sign s c hc _ ih =>
      obtain ⟨k, cur, v, hv, hrun⟩ := ih
      rcases hc with rfl | rfl
      · exact ⟨k, cur, v, hv, hrun⟩
      · refine ⟨k + 1, cur, v, hv, fun F => ?_⟩
        have hrun' : run ('-' :: s) ⟨.start, F⟩ = run s ⟨.start, .op 0 minus :: F⟩ := rfl
        rw [hrun', hrun, minuses_append]
  | @blankLeft s c hc _ ih =>
      obtain ⟨k, cur, v, hv, hrun⟩ := ih
      exact ⟨k, cur, v, hv, fun F => by rw [run, step_blank hc]; exact hrun F⟩
  | @blankRight s c hc _ ih =>
      obtain ⟨k, cur, v, hv, hrun⟩ := ih
      refine ⟨k, (blank ⟨cur, []⟩).cur, v, by cases cur <;> exact hv, fun F => ?_⟩
      rw [run_append, hrun]
      show (step c ⟨cur, minuses k ++ F⟩).bind (run []) = _
      rw [step_blank hc]
      cases cur <;> rfl

/-! ### Nor does it for what fits -/

lemma appliesFit_above {n : ℕ} : AppliesFit n v (G ++ .bracket :: F) ↔ AppliesFit n v G := by
  induction G generalizing v with
  | nil => exact Iff.rfl
  | cons f G ih =>
      cases f with
      | bracket => exact Iff.rfl
      | op a c => exact imp_congr_right fun _ => and_congr_right fun _ => ih

lemma valueFits_above : ValueFits c v (G ++ .bracket :: F) ↔ ValueFits c v G := by
  simp only [ValueFits, appliesFit_above]

lemma stepFits_above : StepFits c ⟨cur, G ++ .bracket :: F⟩ ↔ StepFits c ⟨cur, G⟩ := by
  cases cur with
  | start => exact Iff.rfl
  | digits v => exact and_congr_right fun _ => valueFits_above
  | done v => exact valueFits_above

lemma scanFits_above (h : run s ⟨cur, G⟩ = some st) :
    ScanFits s ⟨cur, G ++ .bracket :: F⟩ ↔ ScanFits s ⟨cur, G⟩ := by
  induction s generalizing cur G with
  | nil => exact Iff.rfl
  | cons c s ih =>
      obtain ⟨⟨cur₁, G₁⟩, hstep, hrest⟩ := Option.bind_eq_some_iff.1 h
      rw [scanFits_cons hstep, scanFits_cons (step_above hstep F), stepFits_above, ih hrest]

/-- A character that is no operator and no `)` applies nothing. -/
lemma valueFits_of_not (hc : ¬ IsOpr c) (hclose : c ≠ ')') : ValueFits c v F :=
  ⟨fun h => absurd h hc, fun h => absurd h hclose⟩

lemma stepFits_blank (hc : IsBlank c) (st : Exact) : StepFits c st := by
  have hdigit : ¬ IsDigit c := by rcases hc with rfl | rfl | rfl <;> decide
  have hvalue : ∀ v F, ValueFits c v F := fun v F =>
    valueFits_of_not (fun hopr => hopr.not_blank hc) (by rcases hc with rfl | rfl | rfl <;> decide)
  obtain ⟨cur, F⟩ := st
  cases cur with
  | start => trivial
  | digits v => exact ⟨fun hd => absurd hd hdigit, hvalue v F⟩
  | done v => exact hvalue v F

lemma scanFits_digits (hs : ∀ d ∈ s, IsDigit d) :
    ScanFits s ⟨.digits v, F⟩ ↔ ScanFits s ⟨.digits v, G⟩ := by
  induction s generalizing v with
  | nil => exact Iff.rfl
  | cons d s ih =>
      have hd : IsDigit d := hs d (by simp)
      have hvalue : ∀ F, ValueFits d v F := fun F =>
        valueFits_of_not (fun hopr => hopr.not_digit hd) fun h => absurd (h ▸ hd) (by decide)
      have hstep : ∀ F, step d ⟨.digits v, F⟩ = some ⟨.digits (v * 10 + Calc.digit d), F⟩ :=
        fun F => step_digit hd _
      rw [scanFits_cons (hstep F), scanFits_cons (hstep G), ih fun d' hd' => hs d' (by simp [hd'])]
      exact and_congr_left fun _ => and_congr_right fun _ => iff_of_true (hvalue F) (hvalue G)

/-- What waits in front of an operand has no part in it. -/
lemma scanFits_operand (h : Operand s) (F G : Frames) :
    ScanFits s ⟨.start, F⟩ ↔ ScanFits s ⟨.start, G⟩ := by
  induction h generalizing F G with
  | @lit ds hne hds =>
      match ds, hne, hds with
      | d :: ds, _, hds =>
          have hd : IsDigit d := hds d (by simp)
          have hstep : ∀ F, step d ⟨.start, F⟩ = some ⟨.digits (Calc.digit d), F⟩ := fun F =>
            step_digit hd _
          rw [scanFits_cons (hstep F), scanFits_cons (hstep G)]
          exact and_congr_right fun _ => scanFits_digits fun d' hd' => hds d' (by simp [hd'])
  | @bracket s hs =>
      obtain ⟨cur, v, H, hrun, hv, -⟩ := run_expression hs []
      have hrun' : ∀ F, run s ⟨.start, .bracket :: F⟩ = some ⟨cur, H ++ .bracket :: F⟩ :=
        run_above hrun
      have hall : ∀ F, ScanFits ('(' :: s ++ [')']) ⟨.start, F⟩ ↔
          ScanFits s ⟨.start, []⟩ ∧ StepFits ')' ⟨cur, H⟩ := by
        intro F
        have hopen : step '(' ⟨.start, F⟩ = some ⟨.start, .bracket :: F⟩ := rfl
        have habove : ScanFits s ⟨.start, .bracket :: F⟩ ↔ ScanFits s ⟨.start, []⟩ :=
          scanFits_above hrun
        rw [List.cons_append, scanFits_cons hopen, scanFits_append (hrun' F), habove]
        refine (iff_of_eq (true_and _)).trans (and_congr_right fun _ => ?_)
        rw [ScanFits, stepFits_above]
        exact and_iff_left (by split <;> trivial)
      rw [hall F, hall G]
  | @sign s c hc _ ih =>
      rcases hc with rfl | rfl
      · exact and_congr_right fun _ => ih F G
      · exact and_congr_right fun _ => ih _ _
  | @blankLeft s c hc _ ih =>
      have hstep : ∀ F, step c ⟨.start, F⟩ = some ⟨.start, F⟩ := fun F => step_blank hc _
      rw [scanFits_cons (hstep F), scanFits_cons (hstep G), ih F G]
      exact and_congr_left fun _ => Iff.rfl
  | @blankRight s c hc hs ih =>
      obtain ⟨k, cur, v, -, hrun⟩ := run_operand hs
      have hblank : ∀ st, ScanFits [c] st := fun st =>
        ⟨stepFits_blank hc st, by split <;> trivial⟩
      rw [scanFits_append (hrun F), scanFits_append (hrun G), ih F G]
      exact and_congr_right fun _ => iff_of_true (hblank _) (hblank _)

/-! ### Minuses that come too late -/

lemma level_le (c : Char) : opr2level c ≤ 2 := by
  rw [opr2level]
  split_ifs <;> decide

lemma eq_of_level_two (h : opr2level c = 2) : c = '*' ∨ c = '/' ∨ c = '%' := by
  by_contra hno
  rw [opr2level, if_neg hno] at h
  split_ifs at h
  omega

/-- The sign of the left operand of `*`, `/` and `%` is the sign of the result. -/
lemma opValue_neg (hc : 2 ≤ opr2level c) (v w : ℤ) :
    opValue c (-v) w = -opValue c v w := by
  rcases eq_of_level_two (le_antisymm (level_le c) hc) with rfl | rfl | rfl
  · exact Int.neg_mul v w
  · exact Int.neg_tdiv v w
  · exact Int.neg_tmod v w

/-- Minuses may be applied before or after the operators that bind tighter. -/
lemma delays_minuses (k : ℕ) : Delays (fun c : Opr => opr2level c.1) (fun c => opValue c.1) 2
    (minuses k) (fun v => -v)^[k] where
  low := by
    intro n hn v
    induction k generalizing v with
    | zero => rfl
    | succ k ih =>
        have hle : n ≤ opr2level minus.1 := Nat.le_of_lt_succ hn
        have hred : applyFrom n v (minuses (k + 1)) = applyFrom n (0 - v) (minuses k) :=
          if_pos hle
        have hstep := ih (0 - v)
        rw [Int.zero_sub] at hred hstep
        exact hred.trans hstep
  high := by
    cases k with
    | zero => rintro f ⟨⟩
    | succ k =>
        rintro f ⟨⟩ a c hf
        obtain ⟨-, rfl⟩ : (0 : ℤ) = a ∧ minus = c := by simpa using hf
        decide
  comm := by
    intro c hc v w
    induction k generalizing v with
    | zero => rfl
    | succ k ih =>
        simp only [Function.iterate_succ_apply]
        rw [ih, opValue_neg hc]

/-- The machine with the minuses behind an operand, and the one without them. -/
inductive Behind (M F : Frames) (φ : ℤ → ℤ) : Exact → Exact → Prop
  | frames {cur : Cur} {A B : Frames} : Delayed (fun c : Opr => opr2level c.1) 2 M F φ A B →
      Behind M F φ ⟨cur, A⟩ ⟨cur, B⟩
  | value {v : ℤ} : Behind M F φ ⟨.done v, M ++ F⟩ ⟨.done (φ v), F⟩

section

variable (hM : Delays (fun c : Opr => opr2level c.1) (fun c => opValue c.1) 2 M φ)
  (hF : Stops (fun c : Opr => opr2level c.1) 2 F)
include hM hF

/-- Applying what waits from some level on. -/
lemma Behind.applyFrom {a b : Exact} (h : Behind M F φ a b) {n : ℕ} (hn : n ≤ 2)
    (hv : a.cur.value = some v) : ∃ v', b.cur.value = some v' ∧
      ((∃ w A B, applyFrom n v a.frames = (w, A) ∧ applyFrom n v' b.frames = (w, B) ∧
        Delayed (fun c : Opr => opr2level c.1) 2 M F φ A B) ∨
      n = 2 ∧ ∃ w, applyFrom n v a.frames = (w, M ++ F) ∧
        applyFrom n v' b.frames = (φ w, F)) := by
  cases h with
  | frames hd => exact ⟨v, hv, hd.reduce hM hF hn v⟩
  | @value u =>
      obtain rfl : u = v := by simpa [Cur.value] using hv
      refine ⟨φ u, rfl, ?_⟩
      -- an operator of the level 2 leaves the minuses, any other one applies them
      rcases hn.lt_or_eq with hlt | rfl
      · refine Or.inl ⟨_, _, _, hM.reduce_lt hlt u F, rfl, .refl _⟩
      · exact Or.inr ⟨rfl, u, Precedence.reduce_of_stops (hM.high.append hF),
          Precedence.reduce_of_stops hF⟩

/-- An operator behind the operand. -/
lemma Behind.opr {a b a' : Exact} {c : Opr} (h : Behind M F φ a b) (hstep : a.opr c = some a') :
    ∃ b', b.opr c = some b' ∧ Behind M F φ a' b' := by
  cases hv : a.cur.value with
  | none =>
      cases h with
      | value => simp [Cur.value] at hv
      | @frames cur A B hd =>
          by_cases hplus : c.1 = '+'
          · obtain rfl : ⟨cur, A⟩ = a' := by simpa [Exact.opr, hv, hplus] using hstep
            exact ⟨⟨cur, B⟩, by simp_all [Exact.opr], .frames hd⟩
          · by_cases hminus : c.1 = '-'
            · obtain rfl : ⟨cur, .op 0 c :: A⟩ = a' := by
                simpa [Exact.opr, hv, hplus, hminus] using hstep
              exact ⟨⟨cur, .op 0 c :: B⟩, by simp_all [Exact.opr], .frames (hd.cons _)⟩
            · simp [Exact.opr, hv, hplus, hminus] at hstep
  | some v =>
      obtain ⟨v', hv', hred⟩ := h.applyFrom hM hF (level_le c.1) hv
      obtain ⟨cur, A⟩ := a
      obtain ⟨cur', B⟩ := b
      rw [opr_of_value hv] at hstep
      obtain rfl := Option.some.inj hstep
      refine ⟨_, opr_of_value hv', .frames ?_⟩
      rcases hred with ⟨w, A', B', hA, hB, hd⟩ | ⟨hlevel, w, hA, hB⟩
      · rw [hA, hB]
        exact hd.cons _
      · rw [hA, hB]
        exact .below [] w hlevel.ge

lemma Behind.closeBracket {a b a' : Exact} (h : Behind M F φ a b)
    (hstep : a.closeBracket = some a') :
    ∃ b', b.closeBracket = some b' ∧ Behind M F φ a' b' := by
  cases hv : a.cur.value with
  | none => simp [Exact.closeBracket, hv] at hstep
  | some v =>
      obtain ⟨v', hv', hred⟩ := h.applyFrom hM hF (Nat.zero_le 2) hv
      obtain ⟨w, A, B, hA, hB, hd⟩ := hred.resolve_right (by simp)
      obtain ⟨cur, A₀⟩ := a
      obtain ⟨cur', B₀⟩ := b
      rcases applyFrom_zero v A₀ with ⟨w', -, hred'⟩ | ⟨w', G, -, hred'⟩
      · simp [Exact.closeBracket, hv, hred'] at hstep
      · rw [closeBracket_of_value hv hred'] at hstep
        obtain rfl := Option.some.inj hstep
        -- the bracket is above the delayed minuses, or these have been applied
        obtain ⟨rfl, rfl⟩ : w' = w ∧ .bracket :: G = A := by
          simpa using hred'.symm.trans hA
        obtain ⟨B', rfl, hd'⟩ := hd.of_bracket
        exact ⟨⟨.done w', B'⟩, closeBracket_of_value hv' hB, .frames hd'⟩

lemma Behind.finish {a b : Exact} (h : Behind M F φ a b) (hv : a.finish = some w) :
    b.finish = some w := by
  cases hx : a.cur.value with
  | none => simp [Exact.finish, hx] at hv
  | some v =>
      obtain ⟨v', hv', hred⟩ := h.applyFrom hM hF (Nat.zero_le 2) hx
      obtain ⟨w', A, B, hA, hB, hd⟩ := hred.resolve_right (by simp)
      rcases applyFrom_zero v a.frames with ⟨u, -, hred'⟩ | ⟨u, G, -, hred'⟩
      · obtain rfl : u = w := by simpa [Exact.finish, hx, hred'] using hv
        obtain ⟨rfl, rfl⟩ : u = w' ∧ [] = A := by simpa using hred'.symm.trans hA
        obtain rfl : B = [] := hd.of_nil
        simp [Exact.finish, hv', hB]
      · simp [Exact.finish, hx, hred'] at hv

/-- One more character. -/
lemma Behind.step {a b a' : Exact} (h : Behind M F φ a b) (hstep : a.step c = some a') :
    ∃ b', b.step c = some b' ∧ Behind M F φ a' b' := by
  rcases step_cases hstep with ⟨hdigit, hdone⟩ | ⟨hopr, hdone⟩ | ⟨hblank, rfl⟩ |
      ⟨rfl, A, rfl, rfl⟩ | ⟨rfl, hdone⟩
  · rw [step_digit hdigit]
    cases h with
    | value => simp [digit] at hdone
    | @frames cur A B hd =>
        cases cur with
        | start =>
            obtain rfl := Option.some.inj hdone
            exact ⟨_, rfl, .frames hd⟩
        | digits v =>
            obtain rfl := Option.some.inj hdone
            exact ⟨_, rfl, .frames hd⟩
        | done v => simp [digit] at hdone
  · rw [step_opr hopr]
    exact h.opr hM hF hdone
  · rw [step_blank hblank]
    refine ⟨_, rfl, ?_⟩
    cases h with
    | value => exact .value
    | @frames cur A B hd => cases cur <;> exact .frames hd
  · cases h with
    | frames hd => exact ⟨_, rfl, .frames (hd.cons _)⟩
  · exact h.closeBracket hM hF hdone

/-- The rest of the string. -/
lemma Behind.run {a b : Exact} (h : Behind M F φ a b)
    (hv : (a.run s).bind Exact.finish = some w) : (b.run s).bind Exact.finish = some w := by
  induction s generalizing a b with
  | nil => exact h.finish hM hF hv
  | cons c s ih =>
      obtain ⟨a₁, hrun, hfinish⟩ := Option.bind_eq_some_iff.1 hv
      obtain ⟨a', hstep, hrest⟩ := Option.bind_eq_some_iff.1 hrun
      obtain ⟨b', hstep', h'⟩ := h.step hM hF hstep
      rw [Exact.run, hstep']
      exact ih h' (by rw [hrest]; exact hfinish)

end

/-- A character that does not bind tighter finds the minuses in time. -/
lemma step_of_not_tight (hM : Delays (fun c : Opr => opr2level c.1) (fun c => opValue c.1) 2 M φ)
    (hlow : IsOpr c → opr2level c < 2) (hblank : ¬ IsBlank c) (v : ℤ) (F : Frames) :
    step c ⟨.done v, M ++ F⟩ = step c ⟨.done (φ v), F⟩ := by
  have hred : ∀ n < 2, applyFrom n v (M ++ F) = applyFrom n (φ v) F := fun n hn =>
    hM.reduce_lt hn v F
  by_cases hknown : Known c
  · rcases hknown with hdigit | hopr | hblank' | rfl | rfl
    · simp [step_digit hdigit, digit]
    · simp only [step_opr hopr, opr, Cur.value, hred _ (hlow hopr)]
    · exact absurd hblank' hblank
    · rfl
    · simp only [step_close, closeBracket, Cur.value, hred 0 (by decide)]
  · simp [step_unknown hknown]

lemma level_lt_of_firstAfter (h : ¬ Tight (firstAfter (c :: R))) (hc : IsOpr c) :
    opr2level c < 2 :=
  lt_of_le_of_ne (level_le c) fun hlevel => h ⟨c, by simp [firstAfter, hc.not_blank], hlevel⟩

lemma firstAfter_blank (hc : IsBlank c) : firstAfter (c :: R) = firstAfter R := by
  simp [firstAfter, hc]

/-- In front of anything that does not bind tighter the minuses are in time. -/
lemma run_of_not_tight (hM : Delays (fun c : Opr => opr2level c.1) (fun c => opValue c.1) 2 M φ)
    (hR : ¬ Tight (firstAfter R)) (v : ℤ) (F : Frames) :
    (run R ⟨.done v, M ++ F⟩).bind finish = (run R ⟨.done (φ v), F⟩).bind finish := by
  induction R with
  | nil =>
      have hred : applyFrom 0 v (M ++ F) = applyFrom 0 (φ v) F := hM.reduce_lt (by decide) v F
      simp only [run, Option.bind_some, finish, Cur.value, hred]
  | cons c R ih =>
      rw [run, run]
      by_cases hblank : IsBlank c
      · rw [step_blank hblank, step_blank hblank]
        exact ih (firstAfter_blank hblank ▸ hR)
      · rw [step_of_not_tight hM (level_lt_of_firstAfter hR) hblank]

/-- What fits with the minuses applied first also fits in front of anything that does not
bind tighter. -/
lemma appliesFit_minuses {n : ℕ}
    (hminuses : AppliesFit 0 v (minuses k ++ .bracket :: F))
    (hF : AppliesFit n ((fun v => -v)^[k] v) G) : AppliesFit n v (minuses k ++ G) := by
  induction k generalizing v with
  | zero => exact hF
  | succ k ih =>
      obtain ⟨hop, hrest⟩ := hminuses (Nat.zero_le _)
      refine fun _ => ⟨hop, ih hrest ?_⟩
      show AppliesFit n ((fun v => -v)^[k] (0 - v)) G
      rwa [Int.zero_sub]

lemma runFits_of_not_tight (hminuses : AppliesFit 0 v (minuses k ++ .bracket :: F))
    (hR : ¬ Tight (firstAfter R)) (hfits : RunFits R ⟨.done ((fun v => -v)^[k] v), G⟩) :
    RunFits R ⟨.done v, minuses k ++ G⟩ := by
  induction R with
  | nil => exact appliesFit_minuses hminuses hfits
  | cons c R ih =>
      obtain ⟨⟨hopr, hclose⟩, hrest⟩ := hfits
      refine ⟨⟨fun hc => appliesFit_minuses hminuses (hopr hc),
        fun hc => appliesFit_minuses hminuses (hclose hc)⟩, ?_⟩
      by_cases hblank : IsBlank c
      · rw [step_blank hblank] at hrest ⊢
        exact ih (firstAfter_blank hblank ▸ hR) hrest
      · rw [step_of_not_tight (delays_minuses k) (level_lt_of_firstAfter hR) hblank]
        exact hrest

/-- It does not matter whether a literal could go on. -/
lemma step_digits_done (hc : ¬ IsDigit c) (v : ℤ) (F : Frames) :
    step c ⟨.digits v, F⟩ = step c ⟨.done v, F⟩ := by
  simp [step, hc, opr, blank, openBracket, closeBracket, Cur.value]

lemma run_digits_done (hR : ∀ c ∈ R.head?, ¬ IsDigit c) (v : ℤ) (F : Frames) :
    (run R ⟨.digits v, F⟩).bind finish = (run R ⟨.done v, F⟩).bind finish := by
  match R, hR with
  | [], _ => rfl
  | c :: R, hR => rw [run, run, step_digits_done (hR c rfl)]

lemma runFits_digits_done (hR : ∀ c ∈ R.head?, ¬ IsDigit c) :
    RunFits R ⟨.digits v, F⟩ ↔ RunFits R ⟨.done v, F⟩ := by
  match R, hR with
  | [], _ => exact Iff.rfl
  | c :: R, hR =>
      rw [RunFits, RunFits, step_digits_done (hR c rfl)]
      exact and_congr_left fun _ => and_iff_right fun hc => absurd hc (hR c rfl)

/-! ### In front of the operand -/

/-- Behind an operand a digit or `)` comes last, and in front of one an operator of the
level 2 waits only behind `*`, `/` or `%`. -/
structure Precedes (L : List Char) (st : Exact) : Prop where
  last : ∀ v ∈ st.cur.value, ∃ c ∈ (L.filter fun c => ¬ IsBlank c).getLast?, IsDigit c ∨ c = ')'
  tight : st.cur.value = none → ¬ Stops (fun c : Opr => opr2level c.1) 2 st.frames →
    Tight (lastBefore L)

lemma precedes_nil : Precedes [] ⟨.start, []⟩ where
  last := by rintro v ⟨⟩
  tight := fun _ hno => absurd (by rintro f ⟨⟩) hno

/-- An operator of a lower level on top hides those below it. -/
lemma stops_op {a : ℤ} {c : Opr} (h : opr2level c.1 < 2) (F : Frames) :
    Stops (fun c : Opr => opr2level c.1) 2 (.op a c :: F) := by
  rintro f ⟨⟩ a' c' hf
  obtain ⟨-, rfl⟩ : a = a' ∧ c = c' := by simpa using hf
  exact h

lemma Precedes.digit (hc : IsDigit c) (hstep : Exact.digit c st = some st') :
    Precedes (L ++ [c]) st' := by
  refine ⟨fun v hv => ⟨c, by simp [hc.not_blank], Or.inl hc⟩, fun hnone => ?_⟩
  obtain ⟨cur, F⟩ := st
  cases cur <;> simp [Exact.digit] at hstep <;> simp [← hstep, Cur.value] at hnone

lemma Precedes.opr {c : Opr} (h : Precedes L st) (hstep : Exact.opr c st = some st') :
    Precedes (L ++ [c.1]) st' := by
  obtain ⟨cur, F⟩ := st
  cases hv : cur.value with
  | some v =>
      rw [opr_of_value hv] at hstep
      obtain rfl := Option.some.inj hstep
      refine ⟨by rintro v ⟨⟩, fun _ hno => ?_⟩
      have hlevel : opr2level c.1 = 2 :=
        le_antisymm (level_le c.1) (not_lt.1 fun hlt => hno (stops_op hlt _))
      have hplus : c.1 ≠ '+' := by
        intro hplus
        rw [hplus] at hlevel
        exact absurd hlevel (by decide)
      exact ⟨c.1, by simp [lastBefore, c.2.not_blank, hplus], hlevel⟩
  | none =>
      by_cases hplus : c.1 = '+'
      · -- a plus leaves the operator in front of it on top
        obtain rfl : ⟨cur, F⟩ = st' := by simpa [Exact.opr, hv, hplus] using hstep
        refine ⟨by simp [hv], fun hnone hno => ?_⟩
        simpa [lastBefore, hplus] using h.tight hnone hno
      · by_cases hminus : c.1 = '-'
        · obtain rfl : ⟨cur, .op 0 c :: F⟩ = st' := by
            simpa [Exact.opr, hv, hplus, hminus] using hstep
          exact ⟨by simp [hv], fun _ hno => absurd (stops_op (by rw [hminus]; decide) F) hno⟩
        · simp [Exact.opr, hv, hplus, hminus] at hstep

lemma Precedes.blank (h : Precedes L st) (hc : IsBlank c) :
    Precedes (L ++ [c]) (Exact.blank st) := by
  obtain ⟨cur, F⟩ := st
  have hvalue : (Exact.blank ⟨cur, F⟩).cur.value = cur.value := by cases cur <;> rfl
  have hframes : (Exact.blank ⟨cur, F⟩).frames = F := by cases cur <;> rfl
  constructor
  · rw [hvalue]
    simpa [hc] using h.last
  · rw [hvalue, hframes]
    simpa [lastBefore, hc] using h.tight

lemma Precedes.openBracket (F : Frames) : Precedes (L ++ ['(']) ⟨.start, .bracket :: F⟩ := by
  refine ⟨by rintro v ⟨⟩, fun _ hno => absurd ?_ hno⟩
  rintro f ⟨⟩ a c hf
  exact absurd hf (by simp)

lemma Precedes.closeBracket (hstep : Exact.closeBracket st = some st') :
    Precedes (L ++ [')']) st' := by
  refine ⟨fun v hv => ⟨')', by simp [IsBlank], Or.inr rfl⟩, fun hnone => ?_⟩
  obtain ⟨w, G, rfl⟩ : ∃ w G, ⟨.done w, G⟩ = st' := by
    rw [Exact.closeBracket] at hstep
    split at hstep
    · simp at hstep
    · split at hstep
      · exact ⟨_, _, Option.some.inj hstep⟩
      · simp at hstep
  simp [Cur.value] at hnone

lemma run_precedes (h : run L ⟨.start, []⟩ = some st) : Precedes L st := by
  induction L using List.reverseRecOn generalizing st with
  | nil =>
      obtain rfl : ⟨.start, []⟩ = st := by simpa [run] using h
      exact precedes_nil
  | append_singleton L c ih =>
      rw [run_append] at h
      obtain ⟨st₀, hrun, hc⟩ := Option.bind_eq_some_iff.1 h
      obtain ⟨st₁, hstep, hst⟩ := Option.bind_eq_some_iff.1 hc
      obtain rfl : st₁ = st := Option.some.inj hst
      rcases step_cases hstep with ⟨hdigit, hdone⟩ | ⟨hopr, hdone⟩ | ⟨hblank, rfl⟩ |
          ⟨rfl, F, rfl, rfl⟩ | ⟨rfl, hdone⟩
      · exact .digit hdigit hdone
      · exact (ih hrun).opr hdone
      · exact (ih hrun).blank hblank
      · exact .openBracket F
      · exact .closeBracket hdone

/-- In front of an operand the machine waits for one. -/
lemma eq_start_of_atOperand (hL : AtOperand L) (h : Precedes L ⟨cur, F⟩) : cur = .start := by
  refine Cur.eq_start ?_
  cases hv : cur.value with
  | none => rfl
  | some v =>
      exfalso
      obtain ⟨c, hc, hlast⟩ := h.last v hv
      rcases hL c hc, hlast with ⟨rfl | hopr, hdigit | hclose⟩
      · exact absurd hdigit (by decide)
      · exact absurd hclose (by decide)
      · exact hopr.not_digit hdigit
      · rw [hclose] at hopr
        exact absurd hopr (by decide)

/-- Behind the operand with a minus. -/
lemma run_withMinus {x R : List Char} {k : ℕ} {cur : Cur} {y : ℤ} (hy : cur.value = some y)
    (hrun : ∀ F, run x ⟨.start, F⟩ = some ⟨cur, minuses k ++ F⟩) (hR : ∀ c ∈ R.head?, ¬ IsDigit c)
    (F : Frames) : (run ('-' :: (x ++ R)) ⟨.start, F⟩).bind finish =
      (run R ⟨.done y, minuses (k + 1) ++ F⟩).bind finish := by
  have hminus : run ('-' :: (x ++ R)) ⟨.start, F⟩ = run (x ++ R) ⟨.start, .op 0 minus :: F⟩ := rfl
  rw [hminus, run_append, hrun, minuses_append, Option.bind_some]
  match cur, hy with
  | .digits _, rfl => exact run_digits_done hR y _
  | .done _, rfl => rfl

/-- Behind the subtraction in brackets. -/
lemma run_withBrackets {x R : List Char} {k : ℕ} {cur : Cur} {y : ℤ} (hy : cur.value = some y)
    (hrun : ∀ F, run x ⟨.start, F⟩ = some ⟨cur, minuses k ++ F⟩) (F : Frames) :
    run ('(' :: '0' :: '-' :: (x ++ ')' :: R)) ⟨.start, F⟩ =
      run R ⟨.done ((fun v => -v)^[k + 1] y), F⟩ := by
  have hopen : run ('(' :: '0' :: '-' :: (x ++ ')' :: R)) ⟨.start, F⟩ =
      run (x ++ ')' :: R) ⟨.start, .op 0 minus :: .bracket :: F⟩ := rfl
  have hred : applyFrom 0 y (minuses (k + 1) ++ .bracket :: F) =
      ((fun v => -v)^[k + 1] y, .bracket :: F) :=
    (delays_minuses (k + 1)).reduce_lt (by decide) y (.bracket :: F)
  rw [hopen, run_append, hrun, minuses_append, Option.bind_some, run, step_close,
    closeBracket_of_value hy hred]
  rfl

end Exact

end Calc

end DemoClass
