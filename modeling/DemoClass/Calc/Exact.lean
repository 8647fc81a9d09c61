import DemoClass.Calc.Calls
import DemoClass.Lib.Precedence

/-!
# The calculator with unbounded numbers

What the calculator is for, as a machine that reads an expression from left to right: it
remembers the operand that is being read, if there is one, and the operators and brackets
that wait in front of it, each operator with its left operand.  A character that does not
fit is refused.  Every expression is accepted (`run_expression`), and `calc_main` returns
the value of this machine when nothing overflows and nothing is divided by zero on its
way (`calcMain_exact`).
-/

namespace DemoClass

namespace Calc

open Precedence (Frame opens)

/-- An operator. -/
abbrev Opr := {c : Char // IsOpr c}

/-- The operators and brackets that wait, the last one in front. -/
abbrev Frames := List (Frame ℤ Opr)

/-- Apply the waiting operators of at least the level `n`, up to a bracket. -/
abbrev applyFrom (n : ℕ) (v : ℤ) (F : Frames) : ℤ × Frames :=
  Precedence.reduce (fun c : Opr => opr2level c.1) (fun c => opValue c.1) n v F

/-- From the level 0 on only a bracket stops. -/
lemma applyFrom_zero (v : ℤ) (F : Frames) : (∃ w, opens F = 0 ∧ applyFrom 0 v F = (w, [])) ∨
    ∃ w G, opens F = opens G + 1 ∧ applyFrom 0 v F = (w, .bracket :: G) :=
  Precedence.reduce_zero v F

/-- What has been read of an operand. -/
inductive Cur
  | start
  /-- a literal that may go on -/
  | digits (v : ℤ)
  | done (v : ℤ)

/-- The value of the operand. -/
def Cur.value : Cur → Option ℤ
  | .start => none
  | .digits v => some v
  | .done v => some v

/-- The state of the machine. -/
structure Exact where
  cur : Cur
  frames : Frames

namespace Exact

/-- A digit starts a literal or goes on with it. -/
def digit (d : Char) (st : Exact) : Option Exact :=
  match st.cur with
  | .start => some ⟨.digits (Calc.digit d), st.frames⟩
  | .digits v => some ⟨.digits (v * 10 + Calc.digit d), st.frames⟩
  | .done _ => none

/-- An operator behind an operand waits for the next one; in front of an operand it is a
sign, and `-` waits as the operator of a subtraction from 0. -/
def opr (c : Opr) (st : Exact) : Option Exact :=
  match st.cur.value with
  | none =>
    if c.1 = '+' then some st
    else if c.1 = '-' then some ⟨st.cur, .op 0 c :: st.frames⟩
    else none
  | some v =>
    let p := applyFrom (opr2level c.1) v st.frames
    some ⟨.start, .op p.1 c :: p.2⟩

/-- A blank ends a literal. -/
def blank (st : Exact) : Exact :=
  match st.cur with
  | .digits v => ⟨.done v, st.frames⟩
  | _ => st

/-- A bracket is opened in front of an operand. -/
def openBracket (st : Exact) : Option Exact :=
  match st.cur with
  | .start => some ⟨.start, .bracket :: st.frames⟩
  | _ => none

/-- A bracket is closed behind an operand. -/
def closeBracket (st : Exact) : Option Exact :=
  match st.cur.value with
  | none => none
  | some v =>
    match applyFrom 0 v st.frames with
    | (w, .bracket :: F) => some ⟨.done w, F⟩
    | _ => none

/-- One character. -/
def step (c : Char) (st : Exact) : Option Exact :=
  if IsDigit c then st.digit c
  else if h : IsOpr c then st.opr ⟨c, h⟩
  else if IsBlank c then some st.blank
  else if c = '(' then st.openBracket
  else if c = ')' then st.closeBracket
  else none

/-- A string. -/
def run : List Char → Exact → Option Exact
  | [], st => some st
  | c :: cs, st => (st.step c).bind (run cs)

/-- The value at the end of a string. -/
def finish (st : Exact) : Option ℤ :=
  match st.cur.value with
  | none => none
  | some v =>
    match applyFrom 0 v st.frames with
    | (w, []) => some w
    | _ => none

end Exact

/-- The value of a string, if it is accepted. -/
def exactValue (s : List Char) : Option ℤ := (Exact.run s ⟨.start, []⟩).bind Exact.finish

example : exactValue ['6', '/', '-', '2', '*', '3'] = some (-1) := by decide

namespace Exact

variable {c : Char} {s t : List Char} {st st' : Exact} {cur : Cur} {F G : Frames} {v w : ℤ}

/-! ### Characters -/

lemma step_digit (hc : IsDigit c) (st : Exact) : st.step c = st.digit c := if_pos hc

lemma step_opr (hc : IsOpr c) (st : Exact) : st.step c = st.opr ⟨c, hc⟩ := by
  rw [step, if_neg hc.not_digit, dif_pos hc]

lemma step_blank (hc : IsBlank c) (st : Exact) : st.step c = some st.blank := by
  rcases hc with rfl | rfl | rfl <;> rfl

lemma step_open (st : Exact) : st.step '(' = st.openBracket := rfl

lemma step_close (st : Exact) : st.step ')' = st.closeBracket := rfl

lemma step_unknown (hc : ¬ Known c) (st : Exact) : st.step c = none := by
  simp only [Known, not_or] at hc
  simp [step, hc]

/-- What a step does. -/
lemma step_cases (h : st.step c = some st') :
    (IsDigit c ∧ st.digit c = some st') ∨ (∃ hc : IsOpr c, st.opr ⟨c, hc⟩ = some st') ∨
      (IsBlank c ∧ st' = st.blank) ∨
      (c = '(' ∧ ∃ F, st = ⟨.start, F⟩ ∧ st' = ⟨.start, .bracket :: F⟩) ∨
      c = ')' ∧ st.closeBracket = some st' := by
  by_cases hknown : Known c
  · rcases hknown with hdigit | hopr | hblank | rfl | rfl
    · rw [step_digit hdigit] at h
      exact Or.inl ⟨hdigit, h⟩
    · rw [step_opr hopr] at h
      exact Or.inr (Or.inl ⟨hopr, h⟩)
    · rw [step_blank hblank] at h
      exact Or.inr (Or.inr (Or.inl ⟨hblank, (Option.some.inj h).symm⟩))
    · rw [step_open] at h
      obtain ⟨cur, F⟩ := st
      cases cur with
      | start => exact Or.inr (Or.inr (Or.inr (Or.inl ⟨rfl, F, rfl, (Option.some.inj h).symm⟩)))
      | digits v => simp [openBracket] at h
      | done v => simp [openBracket] at h
    · exact Or.inr (Or.inr (Or.inr (Or.inr ⟨rfl, h⟩)))
  · rw [step_unknown hknown] at h
    simp at h

lemma opr_of_value (h : cur.value = some v) {c : Opr} :
    opr c ⟨cur, F⟩ = some ⟨.start, .op (applyFrom (opr2level c.1) v F).1 c ::
      (applyFrom (opr2level c.1) v F).2⟩ := by
  simp [opr, h]

lemma closeBracket_of_value (h : cur.value = some v)
    (hv : applyFrom 0 v F = (w, .bracket :: G)) :
    closeBracket ⟨cur, F⟩ = some ⟨.done w, G⟩ := by
  simp [closeBracket, h, hv]

lemma run_append : run (s ++ t) st = (run s st).bind (run t) := by
  induction s generalizing st with
  | nil => rfl
  | cons c s ih =>
      simp only [List.cons_append, run]
      cases st.step c with
      | none => rfl
      | some st' => exact ih

/-! ### Expressions are accepted -/

lemma run_digits {ds : List Char} (hds : ∀ d ∈ ds, IsDigit d) :
    run ds ⟨.digits v, F⟩ = some ⟨.digits (readDigits v ds), F⟩ := by
  induction ds generalizing v with
  | nil => rfl
  | cons d ds ih =>
      rw [run, step_digit (hds d (by simp))]
      exact ih fun d' hd' => hds d' (by simp [hd'])

lemma run_lit {ds : List Char} (hne : ds ≠ []) (hds : ∀ d ∈ ds, IsDigit d) :
    run ds ⟨.start, F⟩ = some ⟨.digits (readDigits 0 ds), F⟩ := by
  match ds, hne with
  | d :: ds, _ =>
      have hstart : readDigits 0 (d :: ds) = readDigits (Calc.digit d) ds := by simp [readDigits]
      rw [run, step_digit (hds d (by simp)), hstart]
      exact run_digits fun d' hd' => hds d' (by simp [hd'])

/-- An expression is accepted where an operand may stand, and all of its brackets are
closed. -/
lemma run_expression (h : Expression s) (F : Frames) :
    ∃ cur v F', run s ⟨.start, F⟩ = some ⟨cur, F'⟩ ∧ cur.value = some v ∧ opens F' = opens F := by
  induction h generalizing F with
  | lit hne hds => exact ⟨_, _, F, run_lit hne hds, rfl, rfl⟩
  | @bracket s _ ih =>
      obtain ⟨cur, v, F', hrun, hv, hopens⟩ := ih (.bracket :: F)
      rcases applyFrom_zero v F' with ⟨w, hzero, -⟩ | ⟨w, G, hG, hred⟩
      · simp [hzero, opens] at hopens
      · refine ⟨.done w, w, G, ?_, rfl, by simpa [hG, opens] using hopens⟩
        -- the bracket that `)` closes is the one in front of `s`
        have hrun' : run ('(' :: s) ⟨.start, F⟩ = some ⟨cur, F'⟩ := hrun
        rw [run_append, hrun']
        show (step ')' ⟨cur, F'⟩).bind (run []) = _
        rw [step_close, closeBracket_of_value hv hred]
        rfl
  | @sign s c hc _ ih =>
      have hsign : ∃ F', step c ⟨.start, F⟩ = some ⟨.start, F'⟩ ∧ opens F' = opens F := by
        rcases hc with rfl | rfl
        · exact ⟨F, rfl, rfl⟩
        · exact ⟨_, rfl, rfl⟩
      obtain ⟨F', hstep, hopens⟩ := hsign
      obtain ⟨cur, v, F'', hrun, hv, hopens'⟩ := ih F'
      exact ⟨cur, v, F'', by rw [run, hstep]; exact hrun, hv, hopens'.trans hopens⟩
  | @bin s t c _ hc _ ihs iht =>
      obtain ⟨cur, v, F', hrun, hv, hopens⟩ := ihs F
      -- what is applied before the operator waits does not open or close a bracket
      obtain ⟨cur', v', F'', hrun', hv', hopens'⟩ := iht (.op (applyFrom (opr2level c) v F').1
        ⟨c, hc⟩ :: (applyFrom (opr2level c) v F').2)
      refine ⟨cur', v', F'', ?_, hv', hopens'.trans ?_⟩
      · rw [run_append, hrun]
        show (step c ⟨cur, F'⟩).bind (run t) = _
        rw [step_opr hc, opr_of_value hv]
        exact hrun'
      · rw [opens, Precedence.opens_reduce]
        exact hopens
  | @blankLeft s c hc _ ih =>
      obtain ⟨cur, v, F', hrun, hv, hopens⟩ := ih F
      exact ⟨cur, v, F', by rw [run, step_blank hc]; exact hrun, hv, hopens⟩
  | @blankRight s c hc _ ih =>
      obtain ⟨cur, v, F', hrun, hv, hopens⟩ := ih F
      refine ⟨(blank ⟨cur, F'⟩).cur, v, F', ?_, ?_, hopens⟩
      · rw [run_append, hrun]
        show (step c ⟨cur, F'⟩).bind (run []) = _
        rw [step_blank hc]
        cases cur <;> rfl
      · cases cur <;> exact hv

/-- Every expression has a value. -/
lemma exactValue_expression (h : Expression s) : ∃ v, exactValue s = some v := by
  obtain ⟨cur, v, F', hrun, hv, hopens⟩ := run_expression h []
  rcases applyFrom_zero v F' with ⟨w, -, hred⟩ | ⟨w, G, hG, -⟩
  · refine ⟨w, ?_⟩
    rw [exactValue, hrun]
    simp [finish, hv, hred]
  · simp [hG, opens] at hopens

end Exact

end Calc

end DemoClass
