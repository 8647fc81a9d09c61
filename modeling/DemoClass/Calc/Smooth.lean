import DemoClass.Calc.Exact

/-!
# Runs without overflow

When the operations and the literals of the machine with unbounded numbers fit into an
`int` and nothing is divided by zero (`RunFits`), the stacks of the calculator hold what
waits in this machine, character by character (`Holds`), and `calc_main` returns its value
(`calcMain_exact`).  The run of the calculator itself says whether this is so
(`smooth_iff`).
-/

namespace DemoClass

namespace Calc

open Precedence (Frame)

/-- An operation does not overflow or divide by zero. -/
def OpFits (c : Char) (a b : ℤ) : Prop :=
  InInt (opValue c a b) ∧ (c = '/' ∨ c = '%' → b ≠ 0) ∧ (c = '%' → InInt (a.tdiv b))

instance (c : Char) (a b : ℤ) : Decidable (OpFits c a b) := inferInstanceAs (Decidable (_ ∧ _))

/-- A digit behind the number `v` does not make it overflow. -/
def DigitFits (c : Char) (v : ℤ) : Prop := InInt (v * 10) ∧ InInt (digit c + v * 10)

instance (c : Char) (v : ℤ) : Decidable (DigitFits c v) := inferInstanceAs (Decidable (_ ∧ _))

/-- The operation that `do_stack` finds does not overflow or divide by zero. -/
def FitsTop (info : CalcInfo) : Prop :=
  ∀ b a num c opr, info.num = b :: a :: num → info.opr = c :: opr → OpFits c a.1 b.1

/-- In the run of `calc_main` on `s` no literal and no operation overflows, and nothing is
divided by zero. -/
structure Smooth (ovf : ℤ → Except Fault CInt) (s : List Char) : Prop where
  digits : ∀ t c u info, s = t ++ c :: u → IsDigit c →
    (scan ovf t calcInit).Ends (.ok (none, info)) → info.flag = .NUM →
      ∀ p ∈ info.num.head?, DigitFits c p.1
  calls : ∀ caller info, Calls ovf s caller info → FitsTop info

/-! ### The same for the machine with unbounded numbers -/

/-- The operations of `applyFrom`. -/
def AppliesFit (n : ℕ) : ℤ → Frames → Prop
  | _, [] => True
  | _, .bracket :: _ => True
  | v, .op a c :: F =>
    n ≤ opr2level c.1 → OpFits c.1 a v ∧ AppliesFit n (opValue c.1 a v) F

instance decidableAppliesFit (n : ℕ) : (v : ℤ) → (F : Frames) → Decidable (AppliesFit n v F)
  | _, [] => inferInstanceAs (Decidable True)
  | _, .bracket :: _ => inferInstanceAs (Decidable True)
  | v, .op a c :: F =>
    have := decidableAppliesFit n (opValue c.1 a v) F
    inferInstanceAs (Decidable (n ≤ opr2level c.1 → OpFits c.1 a v ∧
      AppliesFit n (opValue c.1 a v) F))

/-- The operations of a character behind the operand `v`. -/
def ValueFits (c : Char) (v : ℤ) (F : Frames) : Prop :=
  (IsOpr c → AppliesFit (opr2level c) v F) ∧ (c = ')' → AppliesFit 0 v F)

instance (c : Char) (v : ℤ) (F : Frames) : Decidable (ValueFits c v F) :=
  inferInstanceAs (Decidable (_ ∧ _))

namespace Exact

/-- The operations of a character. -/
def StepFits (c : Char) : Exact → Prop
  | ⟨.start, _⟩ => True
  | ⟨.digits v, F⟩ => (IsDigit c → DigitFits c v) ∧ ValueFits c v F
  | ⟨.done v, F⟩ => ValueFits c v F

instance (c : Char) : (st : Exact) → Decidable (StepFits c st)
  | ⟨.start, _⟩ => inferInstanceAs (Decidable True)
  | ⟨.digits _, _⟩ => inferInstanceAs (Decidable (_ ∧ _))
  | ⟨.done v, F⟩ => inferInstanceAs (Decidable (ValueFits c v F))

/-- The operations at the end. -/
def FinishFits (st : Exact) : Prop :=
  match st.cur.value with
  | none => True
  | some v => AppliesFit 0 v st.frames

instance : (st : Exact) → Decidable (FinishFits st)
  | ⟨.start, _⟩ => inferInstanceAs (Decidable True)
  | ⟨.digits v, F⟩ => inferInstanceAs (Decidable (AppliesFit 0 v F))
  | ⟨.done v, F⟩ => inferInstanceAs (Decidable (AppliesFit 0 v F))

/-- The operations of a run. -/
def RunFits : List Char → Exact → Prop
  | [], st => FinishFits st
  | c :: cs, st => StepFits c st ∧
    match st.step c with
    | none => True
    | some st' => RunFits cs st'

instance decidableRunFits : (s : List Char) → (st : Exact) → Decidable (RunFits s st)
  | [], st => inferInstanceAs (Decidable (FinishFits st))
  | c :: cs, st =>
    match h : st.step c with
    | none => decidable_of_iff (StepFits c st) (by simp [RunFits, h])
    | some st' =>
      have := decidableRunFits cs st'
      decidable_of_iff (StepFits c st ∧ RunFits cs st') (by simp [RunFits, h])

/-- The operations of a string in front of a rest. -/
def ScanFits : List Char → Exact → Prop
  | [], _ => True
  | c :: cs, st => StepFits c st ∧
    match st.step c with
    | none => True
    | some st' => ScanFits cs st'

end Exact

example : Exact.RunFits ['6', '/', '-', '2', '*', '3'] ⟨.start, []⟩ := by decide

/-! ### The stacks -/

/-- The left operands of the operators that wait. -/
def lefts : Frames → List ℤ
  | [] => []
  | .op a _ :: F => a :: lefts F
  | .bracket :: F => lefts F

/-- The operators and brackets that wait. -/
def waiting : Frames → List Char
  | [] => []
  | .op _ c :: F => c.1 :: waiting F
  | .bracket :: F => '(' :: waiting F

/-- `NUM` behind an operand. -/
def Cur.flag : Cur → Flag
  | .start => .OPR
  | .digits _ => .NUM
  | .done _ => .NUM

/-- The stacks and the flag hold the state of the machine. -/
structure Holds (info : CalcInfo) (st : Exact) : Prop where
  num : info.num.map Subtype.val = st.cur.value.toList ++ lefts st.frames
  opr : info.opr = waiting st.frames
  flag : info.flag = st.cur.flag

/-- The least level of the operators that the loop applies. -/
def Caller.least : Caller → ℕ
  | .opr c => opr2level c
  | .bracket => 0
  | .main => 0

variable {ovf : ℤ → Except Fault CInt} {s t u : List Char} {c : Char} {info info' : CalcInfo}
  {caller : Caller} {start : CalcInfo} {num : List CInt} {flag : Flag}
  {st st' : Exact} {cur : Cur} {F : Frames} {v w : ℤ} {n : ℕ}

lemma holds_init : Holds calcInit ⟨.start, []⟩ := ⟨rfl, rfl, rfl⟩

lemma Cur.flag_of_value (h : cur.value = some v) : cur.flag = .NUM := by
  cases cur with
  | start => simp [value] at h
  | digits _ => rfl
  | done _ => rfl

lemma Cur.eq_start (h : cur.value = none) : cur = .start := by
  cases cur with
  | start => rfl
  | digits _ => simp [value] at h
  | done _ => simp [value] at h

/-- Behind an operand its value is the top of the number stack. -/
lemma Holds.value (h : Holds info ⟨cur, F⟩) (hv : cur.value = some v) :
    info.flag = .NUM ∧ info.num.map Subtype.val = v :: lefts F :=
  ⟨h.flag.trans (Cur.flag_of_value hv), by simpa [hv] using h.num⟩

lemma Exact.StepFits.value (h : Exact.StepFits c ⟨cur, F⟩) (hv : cur.value = some v) :
    ValueFits c v F := by
  match cur, hv, h with
  | .digits _, rfl, h => exact h.2
  | .done _, rfl, h => exact h

/-- Where nothing from the level `n` on waits on top, the operator stack has a top below
this level. -/
lemma topLevel_waiting (h : Precedence.Stops (fun c : Opr => opr2level c.1) n F) (hn : 0 < n) :
    topLevel (waiting F) < n := by
  match F, h with
  | [], _ => exact hn
  | .bracket :: F, _ => exact hn
  | .op a c :: F, h => exact h _ rfl a c rfl

/-! ### The loops -/

lemma applies_iff {c : Opr} : caller.Applies c.1 ↔ caller.least ≤ opr2level c.1 := by
  cases caller with
  | opr c' => exact not_lt
  | bracket => exact iff_of_true c.2.ne_open (Nat.zero_le _)
  | main => exact iff_of_true c.2.ne_open (Nat.zero_le _)

/-! ### The parts of a string -/

namespace Exact

lemma runFits_cons (hstep : st.step c = some st') :
    RunFits (c :: s) st ↔ st.StepFits c ∧ RunFits s st' := by
  rw [RunFits, hstep]

lemma scanFits_cons (hstep : st.step c = some st') :
    ScanFits (c :: s) st ↔ st.StepFits c ∧ ScanFits s st' := by
  rw [ScanFits, hstep]

lemma runFits_append (hrun : run s st = some st') :
    RunFits (s ++ t) st ↔ ScanFits s st ∧ RunFits t st' := by
  induction s generalizing st with
  | nil =>
      obtain rfl : st = st' := by simpa [run] using hrun
      exact (iff_of_eq (true_and _)).symm
  | cons c s ih =>
      obtain ⟨st₁, hstep, hrest⟩ := Option.bind_eq_some_iff.1 hrun
      rw [List.cons_append, runFits_cons hstep, scanFits_cons hstep, ih hrest, and_assoc]

lemma scanFits_append (hrun : run s st = some st') :
    ScanFits (s ++ t) st ↔ ScanFits s st ∧ ScanFits t st' := by
  induction s generalizing st with
  | nil =>
      obtain rfl : st = st' := by simpa [run] using hrun
      exact (iff_of_eq (true_and _)).symm
  | cons c s ih =>
      obtain ⟨st₁, hstep, hrest⟩ := Option.bind_eq_some_iff.1 hrun
      rw [List.cons_append, scanFits_cons hstep, scanFits_cons hstep, ih hrest, and_assoc]

end Exact

/-- A round that applies an operator. -/
lemma Caller.Rounds.snoc {opr : List Char} {a b x : CInt}
    (h : caller.Rounds ovf start ⟨b :: a :: num, c :: opr, flag⟩) (hc : caller.Applies c)
    (happly : apply ovf c a b = pure (some x)) : caller.Rounds ovf start ⟨x :: num, opr, flag⟩ := by
  have hdo : doStack ovf ⟨b :: a :: num, c :: opr, flag⟩ = pure (0, ⟨x :: num, opr, flag⟩) :=
    doStack_eq happly
  cases caller with
  | opr c' =>
      obtain ⟨k, hk⟩ := h
      refine ⟨k + 1, hk.snoc ?_⟩
      rw [oprHandleBody_of_le hc, hdo]
      simp
  | bracket =>
      obtain ⟨k, hk⟩ := h
      refine ⟨k + 1, hk.snoc ?_⟩
      rw [bracketHandleBody_of_ne hc, hdo]
      simp
  | main =>
      obtain ⟨k, hk⟩ := h
      refine ⟨k + 1, hk.snoc ?_⟩
      rw [drainBody_of_ne hc, hdo]
      simp

/-- The numbers under an operator that waits. -/
lemma exists_operands {a : ℤ} {c : Opr} (h : num.map Subtype.val = v :: lefts (.op a c :: F)) :
    ∃ (y x : CInt) (num' : List CInt), num = y :: x :: num' ∧ y.1 = v ∧ x.1 = a ∧
      num'.map Subtype.val = lefts F := by
  match num, h with
  | y :: x :: num', h => exact ⟨y, x, num', rfl, by simpa [lefts] using h⟩
  | [_], h => simp [lefts] at h
  | [], h => simp at h

variable (ovf caller) in
/-- The loop applies what waits. -/
lemma rounds_applyFrom (hfits : AppliesFit caller.least v F)
    (hrounds : caller.Rounds ovf start ⟨num, waiting F, flag⟩)
    (hnum : num.map Subtype.val = v :: lefts F) :
    ∃ num', caller.Rounds ovf start ⟨num', waiting (applyFrom caller.least v F).2, flag⟩ ∧
      num'.map Subtype.val =
        (applyFrom caller.least v F).1 :: lefts (applyFrom caller.least v F).2 := by
  induction F generalizing num v with
  | nil => exact ⟨num, hrounds, hnum⟩
  | cons f F ih =>
      cases f with
      | bracket => exact ⟨num, hrounds, hnum⟩
      | op a c =>
          by_cases hlevel : caller.least ≤ opr2level c.1
          · obtain ⟨y, x, num', rfl, rfl, rfl, hrest⟩ := exists_operands hnum
            obtain ⟨⟨hfit, hzero, hquot⟩, hF⟩ := hfits hlevel
            have happly : apply ovf c.1 x y = pure (some ⟨_, hfit⟩) := apply_eq hfit c.2 hzero hquot
            -- one round of the loop is one step of `applyFrom`
            have hred : applyFrom caller.least y.1 (.op x.1 c :: F) =
                applyFrom caller.least (opValue c.1 x.1 y.1) F := if_pos hlevel
            rw [hred]
            exact ih hF (hrounds.snoc (applies_iff.2 hlevel) happly)
              (by rw [List.map_cons, hrest])
          · have hred : applyFrom caller.least v (.op a c :: F) = (v, .op a c :: F) :=
              if_neg hlevel
            rw [hred]
            exact ⟨num, hrounds, hnum⟩

variable (caller) in
/-- What the calls of a loop find are the operations of `applyFrom`. -/
lemma appliesFit_of_calls
    (hcalls : ∀ info, caller.Rounds ovf start info →
      (∃ top_c ∈ info.opr.head?, caller.Applies top_c) → FitsTop info)
    (hrounds : caller.Rounds ovf start ⟨num, waiting F, flag⟩)
    (hnum : num.map Subtype.val = v :: lefts F) : AppliesFit caller.least v F := by
  induction F generalizing num v with
  | nil => trivial
  | cons f F ih =>
      cases f with
      | bracket => trivial
      | op a c =>
          intro hlevel
          obtain ⟨y, x, num', rfl, rfl, rfl, hrest⟩ := exists_operands hnum
          have hfit : OpFits c.1 x.1 y.1 :=
            hcalls _ hrounds ⟨c.1, rfl, applies_iff.2 hlevel⟩ y x num' c.1 (waiting F) rfl rfl
          have happly : apply ovf c.1 x y = pure (some ⟨_, hfit.1⟩) :=
            apply_eq hfit.1 c.2 hfit.2.1 hfit.2.2
          exact ⟨hfit, ih (hrounds.snoc (applies_iff.2 hlevel) happly)
            (by rw [List.map_cons, hrest])⟩

variable (caller) in
/-- The operations of `applyFrom` are what the calls of a loop find. -/
lemma fitsTop_of_rounds (hopen : ¬ caller.Applies '(') (hfits : AppliesFit caller.least v F)
    (hnum : num.map Subtype.val = v :: lefts F)
    (hrounds : caller.Rounds ovf ⟨num, waiting F, flag⟩ info)
    (happ : ∃ top_c ∈ info.opr.head?, caller.Applies top_c) : FitsTop info := by
  induction F generalizing num v with
  | nil =>
      rcases hrounds.cases with rfl | ⟨⟨top_c, htop, -⟩, -⟩
      · obtain ⟨top_c, htop, -⟩ := happ
        simp [waiting] at htop
      · simp [waiting] at htop
  | cons f F ih =>
      cases f with
      | bracket =>
          have htop : ∀ {top_c}, top_c ∈ (waiting (.bracket :: F)).head? →
              ¬ caller.Applies top_c := by
            rintro top_c htop
            obtain rfl : '(' = top_c := by simpa [waiting] using htop
            exact hopen
          rcases hrounds.cases with rfl | ⟨⟨top_c, hmem, hc⟩, -⟩
          · obtain ⟨top_c, hmem, hc⟩ := happ
            exact absurd hc (htop hmem)
          · exact absurd hc (htop hmem)
      | op a c =>
          obtain ⟨y, x, num', rfl, rfl, rfl, hrest⟩ := exists_operands hnum
          have hlevel : ∀ {top_c}, top_c ∈ (waiting (.op x.1 c :: F)).head? →
              caller.Applies top_c → caller.least ≤ opr2level c.1 := by
            rintro top_c htop hc
            obtain rfl : c.1 = top_c := by simpa [waiting] using htop
            exact applies_iff.1 hc
          rcases hrounds.cases with rfl | ⟨⟨top_c, hmem, hc⟩, ret, info', hdo, hrounds'⟩
          · obtain ⟨top_c, hmem, hc⟩ := happ
            rintro b a num c' opr hb hopr
            obtain ⟨rfl, rfl, -⟩ : y = b ∧ x = a ∧ num' = num := by simpa using hb
            obtain ⟨rfl, -⟩ : c.1 = c' ∧ waiting F = opr := by simpa [waiting] using hopr
            exact (hfits (hlevel hmem hc)).1
          · obtain ⟨⟨hfit, hzero, hquot⟩, hF⟩ := hfits (hlevel hmem hc)
            have hends : (apply ovf c.1 x y).Ends (.ok (some ⟨opValue c.1 x.1 y.1, hfit⟩)) := by
              rw [apply_eq hfit c.2 hzero hquot]
              simp
            -- the operation has a value, and the calculator finds the same one
            cases hdo with
            | zero happly => exact absurd (hends.unique happly) (by simp)
            | value happly =>
                obtain rfl := Option.some.inj (Except.ok.inj (hends.unique happly))
                exact ih hF (by rw [List.map_cons, hrest]) hrounds'

/-! ### Characters -/

/-- The operations of a character fit when the run is smooth. -/
lemma stepFits_of_smooth (hs : Smooth ovf s) (heq : s = t ++ c :: u)
    (hscan : (scan ovf t calcInit).Ends (.ok (none, info))) (hh : Holds info st) :
    st.StepFits c := by
  obtain ⟨cur, F⟩ := st
  obtain ⟨num, opr, flag⟩ := info
  obtain rfl : opr = waiting F := hh.opr
  have hvalue : ∀ v, cur.value = some v → ValueFits c v F := by
    intro v hv
    obtain ⟨rfl, hnum⟩ : flag = .NUM ∧ _ := hh.value hv
    refine ⟨fun hc => ?_, ?_⟩
    · have hstart : (Caller.opr c).Starts ovf s ⟨num, waiting F, .OPR⟩ :=
        ⟨t, u, _, heq, hc, hscan, Or.inl rfl, rfl⟩
      exact appliesFit_of_calls (.opr c)
        (fun info hrounds happ => hs.calls _ _ ⟨⟨_, hstart, hrounds⟩, happ⟩) (.refl _ _) hnum
    · rintro rfl
      have hstart : Caller.bracket.Starts ovf s ⟨num, waiting F, .NUM⟩ := ⟨t, u, heq, hscan⟩
      exact appliesFit_of_calls .bracket
        (fun info hrounds happ => hs.calls _ _ ⟨⟨_, hstart, hrounds⟩, happ⟩) (.refl _ _) hnum
  cases cur with
  | start => trivial
  | digits v =>
      refine ⟨fun hc => ?_, hvalue v rfl⟩
      obtain ⟨hflag, hnum⟩ := hh.value rfl
      cases num with
      | nil => simp at hnum
      | cons p num =>
          obtain ⟨rfl, -⟩ : p.1 = v ∧ num.map Subtype.val = lefts F := by simpa using hnum
          exact hs.digits t c u _ heq hc hscan hflag p rfl
  | done v => exact hvalue v rfl

lemma holds_digit (hfits : st.StepFits c) (hh : Holds info st) (hc : IsDigit c)
    (hstep : st.digit c = some st') :
    ∃ info', (charHandle ovf c info).Ends (.ok (none, info')) ∧ Holds info' st' := by
  have hdigit := hc.inInt
  obtain ⟨cur, F⟩ := st
  obtain ⟨num, opr, flag⟩ := info
  obtain ⟨hnum, hopr, hflag⟩ := hh
  cases cur with
  | start =>
      obtain rfl : st' = ⟨.digits (digit c), F⟩ := by simpa [Exact.digit] using hstep.symm
      obtain rfl : flag = .OPR := hflag
      have hnumHandle : numHandle ovf c ⟨num, opr, .OPR⟩ =
          pure ⟨⟨digit c, hdigit⟩ :: num, opr, .NUM⟩ := by
        simp [numHandle, toCInt_of hdigit]
      refine ⟨⟨⟨digit c, hdigit⟩ :: num, opr, .NUM⟩, ?_, ?_, hopr, rfl⟩
      · rw [charHandle_digit hc hnumHandle]
        simp
      · simpa [Cur.value] using hnum
  | digits v =>
      obtain rfl : st' = ⟨.digits (v * 10 + digit c), F⟩ := by
        simpa [Exact.digit] using hstep.symm
      obtain rfl : flag = .NUM := hflag
      cases num with
      | nil => simp [Cur.value] at hnum
      | cons p num =>
          obtain ⟨rfl, hrest⟩ : p.1 = v ∧ num.map Subtype.val = lefts F := by
            simpa [Cur.value] using hnum
          obtain ⟨hten, hsum⟩ := hfits.1 hc
          have hnumHandle : numHandle ovf c ⟨p :: num, opr, .NUM⟩ =
              pure ⟨⟨digit c + p.1 * 10, hsum⟩ :: num, opr, .NUM⟩ := by
            simp [numHandle, toCInt_of hdigit, toCInt_of hten, toCInt_of hsum]
          refine ⟨⟨⟨digit c + p.1 * 10, hsum⟩ :: num, opr, .NUM⟩, ?_, ?_, hopr, rfl⟩
          · rw [charHandle_digit hc hnumHandle]
            simp
          · rw [List.map_cons, hrest]
            exact congrArg (· :: lefts F) (Int.add_comm _ _)
  | done v => simp [Exact.digit] at hstep

/-- The loop of `opr_handle` pushes its operator on one that binds less tight. -/
lemma oprHandleBody_push (h : topLevel info.opr < opr2level c) :
    (oprHandleBody ovf c info).Ends (.ok (.inr (0, { info with opr := c :: info.opr }))) := by
  match info, h with
  | ⟨num, [], flag⟩, _ => simp [oprHandleBody]
  | ⟨num, top_c :: opr, flag⟩, h =>
      have hlt : opr2level top_c < opr2level c := h
      simp [oprHandleBody, hlt]

lemma holds_opr (hfits : st.StepFits c) (hh : Holds info st) (hc : IsOpr c)
    (hstep : st.opr ⟨c, hc⟩ = some st') :
    ∃ info', (charHandle ovf c info).Ends (.ok (none, info')) ∧ Holds info' st' := by
  obtain ⟨cur, F⟩ := st
  obtain ⟨num, opr, flag⟩ := info
  obtain rfl : opr = waiting F := hh.opr
  cases hv : cur.value with
  | none =>
      -- a sign; any other operator is refused
      obtain rfl := Cur.eq_start hv
      obtain ⟨hnum, -, hflag⟩ := hh
      obtain rfl : flag = .OPR := hflag
      by_cases hplus : c = '+'
      · subst hplus
        obtain rfl : st' = ⟨.start, F⟩ := by simpa [Exact.opr, Cur.value] using hstep.symm
        exact ⟨_, Comp.ends_pure.2 rfl, hnum, rfl, rfl⟩
      · by_cases hminus : c = '-'
        · subst hminus
          obtain rfl : st' = ⟨.start, .op 0 ⟨'-', hc⟩ :: F⟩ := by
            simpa [Exact.opr, Cur.value] using hstep.symm
          refine ⟨_, Comp.ends_pure.2 rfl, ?_, rfl, rfl⟩
          rw [List.map_cons, hnum]
          rfl
        · simp [Exact.opr, Cur.value, hplus, hminus] at hstep
  | some v =>
      rw [Exact.opr_of_value hv] at hstep
      obtain rfl := Option.some.inj hstep
      obtain ⟨rfl, hnum⟩ : flag = .NUM ∧ _ := hh.value hv
      obtain ⟨num', ⟨k, hk⟩, hnum'⟩ := rounds_applyFrom ovf (.opr c)
        ((hfits.value hv).1 hc) (.refl _ ⟨num, waiting F, .OPR⟩) hnum
      have hstops : (oprHandleBody ovf c ⟨num', waiting (applyFrom (opr2level c) v F).2, .OPR⟩).Ends
          (.ok (.inr (0, ⟨num', c :: waiting (applyFrom (opr2level c) v F).2, .OPR⟩))) :=
        oprHandleBody_push (topLevel_waiting (Precedence.stops_reduce _ v F) hc.level_pos)
      have hpush : (oprHandle ovf c ⟨num, waiting F, .NUM⟩).Ends
          (.ok (0, ⟨num', c :: waiting (applyFrom (opr2level c) v F).2, .OPR⟩)) := by
        rw [oprHandle_of_binary (Or.inl rfl), oprPush_ends_iff]
        exact hk.ends hstops.loop_inr
      exact ⟨_, charHandle_opr_ends hc hpush, hnum', rfl, rfl⟩

lemma holds_close (hfits : st.StepFits ')') (hh : Holds info st)
    (hstep : st.closeBracket = some st') :
    ∃ info', (charHandle ovf ')' info).Ends (.ok (none, info')) ∧ Holds info' st' := by
  obtain ⟨cur, F⟩ := st
  obtain ⟨num, opr, flag⟩ := info
  obtain rfl : opr = waiting F := hh.opr
  cases hv : cur.value with
  | none => simp [Exact.closeBracket, hv] at hstep
  | some v =>
      obtain ⟨rfl, hnum⟩ : flag = .NUM ∧ _ := hh.value hv
      obtain ⟨num', ⟨k, hk⟩, hnum'⟩ := rounds_applyFrom ovf .bracket
        ((hfits.value hv).2 rfl) (.refl _ ⟨num, waiting F, .NUM⟩) hnum
      rcases applyFrom_zero v F with ⟨w, -, hred⟩ | ⟨w, G, -, hred⟩
      · simp [Exact.closeBracket, hv, hred] at hstep
      · obtain rfl : st' = ⟨.done w, G⟩ := by
          rw [Exact.closeBracket_of_value hv hred] at hstep
          exact (Option.some.inj hstep).symm
        rw [Caller.least, hred] at hk hnum'
        have hloop := hk.ends (Comp.Ends.loop_inr (v := (0, ⟨num', waiting G, .NUM⟩))
          (by simp [bracketHandleBody, waiting]))
        exact ⟨_, charHandle_close_ends hloop, hnum', rfl, rfl⟩

/-- One more character. -/
lemma holds_step (hfits : st.StepFits c) (hh : Holds info st) (hstep : st.step c = some st') :
    ∃ info', (charHandle ovf c info).Ends (.ok (none, info')) ∧ Holds info' st' := by
  rcases Exact.step_cases hstep with ⟨hdigit, hstep⟩ | ⟨hopr, hstep⟩ | ⟨hblank, rfl⟩ |
      ⟨rfl, F, rfl, rfl⟩ | ⟨rfl, hstep⟩
  · exact holds_digit hfits hh hdigit hstep
  · exact holds_opr hfits hh hopr hstep
  · refine ⟨info, by rw [charHandle_blank hblank]; simp, ?_⟩
    obtain ⟨cur, F⟩ := st
    cases cur <;> exact ⟨hh.num, hh.opr, hh.flag⟩
  · exact ⟨_, Comp.ends_pure.2 rfl, hh.num, congrArg ('(' :: ·) hh.opr, hh.flag⟩
  · exact holds_close hfits hh hstep

/-! ### The whole run -/

variable (ovf) in
/-- The characters of a string in front of a rest. -/
lemma holds_run (hh : Holds info st) (hrun : st.run t = some st')
    (hfits : Exact.RunFits (t ++ u) st) : ∃ info', (scan ovf t info).Ends (.ok (none, info')) ∧
      Holds info' st' ∧ Exact.RunFits u st' := by
  induction t generalizing info st with
  | nil =>
      obtain rfl : st = st' := by simpa [Exact.run] using hrun
      exact ⟨info, Comp.ends_pure.2 rfl, hh, hfits⟩
  | cons c t ih =>
      obtain ⟨st₁, hstep, hrest⟩ := Option.bind_eq_some_iff.1 hrun
      obtain ⟨hc, hfits'⟩ := hfits
      rw [hstep] at hfits'
      obtain ⟨info₁, hchar, hh₁⟩ := holds_step hc hh hstep
      obtain ⟨info', hscan, hh', hfits''⟩ := ih hh₁ hrest hfits'
      exact ⟨info', scan_cons_ends hchar hscan, hh', hfits''⟩

/-- **The calculator computes the exact value.**  When nothing overflows and nothing is
divided by zero, it returns the value of the machine with unbounded numbers. -/
theorem calcMain_exact (hfits : Exact.RunFits s ⟨.start, []⟩) (hv : exactValue s = some v) :
    (calcMain ovf calcInit s).Ends (.ok (v, ⟨[], [], .NUM⟩)) := by
  obtain ⟨⟨cur, F⟩, hrun, hfinish⟩ := Option.bind_eq_some_iff.1 hv
  obtain ⟨⟨num, opr, flag⟩, hscan, hh, hend⟩ :=
    holds_run ovf (u := []) holds_init hrun (by rwa [List.append_nil])
  obtain rfl : opr = waiting F := hh.opr
  cases hx : cur.value with
  | none => simp [Exact.finish, hx] at hfinish
  | some x =>
      obtain ⟨rfl, hnum⟩ : flag = .NUM ∧ _ := hh.value hx
      have hfits' : AppliesFit 0 x F := by simpa [Exact.RunFits, Exact.FinishFits, hx] using hend
      obtain ⟨num', ⟨k, hk⟩, hnum'⟩ := rounds_applyFrom ovf .main hfits'
        (.refl _ ⟨num, waiting F, .NUM⟩) hnum
      rcases applyFrom_zero x F with ⟨w, -, hred⟩ | ⟨w, G, -, hred⟩
      · obtain rfl : w = v := by simpa [Exact.finish, hx, hred] using hfinish
        rw [Caller.least, hred] at hk hnum'
        obtain ⟨y, rfl, rfl⟩ : ∃ y : CInt, num' = [y] ∧ y.1 = w := by
          rcases num' with _ | ⟨y, _ | ⟨z, num'⟩⟩
          · simp at hnum'
          · exact ⟨y, rfl, by simpa [lefts] using hnum'⟩
          · simp [lefts] at hnum'
        have hloop := hk.ends (Comp.Ends.loop_inr (v := (none, ⟨[y], [], .NUM⟩))
          (by simp [drainBody, waiting]))
        exact hscan.bind (hloop.bind (by simp))
      · simp [Exact.finish, hx, hred] at hfinish

/-- A smooth run, from a prefix that has been read. -/
lemma runFits_of_smooth (hs : Smooth ovf s) (heq : s = t ++ u)
    (hscan : (scan ovf t calcInit).Ends (.ok (none, info))) (hh : Holds info st) :
    Exact.RunFits u st := by
  induction u generalizing t info st with
  | nil =>
      obtain ⟨cur, F⟩ := st
      obtain ⟨num, opr, flag⟩ := info
      obtain rfl : opr = waiting F := hh.opr
      obtain rfl : s = t := by simpa using heq
      cases hv : cur.value with
      | none => simp [Exact.RunFits, Exact.FinishFits, hv]
      | some v =>
          have hstart : Caller.main.Starts ovf s ⟨num, waiting F, flag⟩ := hscan
          have hfits : AppliesFit 0 v F := appliesFit_of_calls .main
            (fun info hrounds happ => hs.calls _ _ ⟨⟨_, hstart, hrounds⟩, happ⟩) (.refl _ _)
            (hh.value hv).2
          simpa [Exact.RunFits, Exact.FinishFits, hv] using hfits
  | cons c u ih =>
      have hfits := stepFits_of_smooth hs heq hscan hh
      refine ⟨hfits, ?_⟩
      -- from a refused character on nothing is said
      cases hstep : st.step c with
      | none => trivial
      | some st' =>
          obtain ⟨info', hchar, hh'⟩ := holds_step hfits hh hstep
          have hscan' : (scan ovf (t ++ [c]) calcInit).Ends (.ok (none, info')) :=
            scan_append_ends hscan (scan_cons_ends hchar (Comp.ends_pure.2 rfl))
          exact ih (by simpa using heq) hscan' hh'

/-- Where the calculator is behind a prefix. -/
lemma holds_prefix (hfits : Exact.RunFits (t ++ u) ⟨.start, []⟩)
    (hrun : Exact.run (t ++ u) ⟨.start, []⟩ = some st)
    (hscan : (scan ovf t calcInit).Ends (.ok (none, info))) :
    ∃ st₁, Holds info st₁ ∧ Exact.RunFits u st₁ ∧ st₁.run u = some st := by
  rw [Exact.run_append] at hrun
  obtain ⟨st₁, ht, hu⟩ := Option.bind_eq_some_iff.1 hrun
  obtain ⟨info', hscan', hh, hfits'⟩ := holds_run ovf holds_init ht hfits
  obtain rfl : info = info' := by simpa using hscan.unique hscan'
  exact ⟨st₁, hh, hfits', hu⟩

lemma digitFits_of_runFits (hfits : Exact.RunFits (t ++ c :: u) ⟨.start, []⟩)
    (hrun : Exact.run (t ++ c :: u) ⟨.start, []⟩ = some st) (hc : IsDigit c)
    (hscan : (scan ovf t calcInit).Ends (.ok (none, info))) (hflag : info.flag = .NUM) :
    ∀ p ∈ info.num.head?, DigitFits c p.1 := by
  intro p hp
  obtain ⟨⟨cur, F⟩, hh, ⟨hstep, -⟩, hrest⟩ := holds_prefix hfits hrun hscan
  match cur, hh, hstep, hrest with
  | .start, hh, _, _ => exact absurd (hflag.symm.trans hh.flag) (by simp [Cur.flag])
  | .digits v, hh, hstep, _ =>
      obtain ⟨num, hnum⟩ := List.head?_eq_some_iff.1 hp
      have hmap := hh.num
      rw [hnum] at hmap
      obtain ⟨rfl, -⟩ : p.1 = v ∧ num.map Subtype.val = lefts F := by
        simpa [Cur.value] using hmap
      exact hstep.1 hc
  | .done v, _, _, hrest =>
      rw [Exact.run, Exact.step_digit hc] at hrest
      simp [Exact.digit] at hrest

variable (caller) in
/-- The calls of a loop that is come to behind an operand. -/
lemma fitsTop_of_holds {opr : List Char} {flag₀ : Flag} (hopen : ¬ caller.Applies '(')
    (hh : Holds ⟨num, opr, flag₀⟩ ⟨cur, F⟩) (hv : cur.value = some v)
    (hfits : AppliesFit caller.least v F) (hcalls : caller.Rounds ovf ⟨num, opr, flag⟩ info ∧
      ∃ top_c ∈ info.opr.head?, caller.Applies top_c) : FitsTop info := by
  obtain rfl : opr = waiting F := hh.opr
  exact fitsTop_of_rounds caller hopen hfits (hh.value hv).2 hcalls.1 hcalls.2

lemma fitsTop_of_runFits (hfits : Exact.RunFits s ⟨.start, []⟩) (hv : exactValue s = some v)
    (hcalls : Calls ovf s caller info) : FitsTop info := by
  obtain ⟨st, hrun, hfinish⟩ := Option.bind_eq_some_iff.1 hv
  obtain ⟨⟨start, hstart, hrounds⟩, happ⟩ := hcalls
  cases caller with
  | opr c =>
      obtain ⟨t, u, info₀, rfl, hc, hscan, hbinary, rfl⟩ := hstart
      obtain ⟨⟨cur, F⟩, hh, ⟨hstep, -⟩, hrest⟩ := holds_prefix hfits hrun hscan
      cases hx : cur.value with
      | none =>
          -- an operator that is no sign is refused here
          exfalso
          obtain rfl := Cur.eq_start hx
          obtain ⟨hplus, hminus⟩ := hbinary.resolve_left (by simp [hh.flag, Cur.flag])
          rw [Exact.run, Exact.step_opr hc] at hrest
          simp [Exact.opr, Cur.value, hplus, hminus] at hrest
      | some x =>
          exact fitsTop_of_holds (.opr c) (fun h => h hc.level_pos) hh hx ((hstep.value hx).1 hc)
            ⟨hrounds, happ⟩
  | bracket =>
      obtain ⟨t, u, rfl, hscan⟩ := hstart
      obtain ⟨⟨cur, F⟩, hh, ⟨hstep, -⟩, hrest⟩ := holds_prefix hfits hrun hscan
      cases hx : cur.value with
      | none =>
          rw [Exact.run, Exact.step_close] at hrest
          simp [Exact.closeBracket, hx] at hrest
      | some x =>
          exact fitsTop_of_holds .bracket (fun h => h rfl) hh hx ((hstep.value hx).2 rfl)
            ⟨hrounds, happ⟩
  | main =>
      obtain ⟨⟨cur, F⟩, hh, hend, hrest⟩ :=
        holds_prefix (u := []) (by rwa [List.append_nil]) (by rwa [List.append_nil]) hstart
      obtain rfl : ⟨cur, F⟩ = st := by simpa [Exact.run] using hrest
      cases hx : cur.value with
      | none => simp [Exact.finish, hx] at hfinish
      | some x =>
          have hfits' : AppliesFit 0 x F := by
            simpa [Exact.RunFits, Exact.FinishFits, hx] using hend
          exact fitsTop_of_holds .main (fun h => h rfl) hh hx hfits' ⟨hrounds, happ⟩

/-- **The two notions of a run without overflow agree.** -/
theorem smooth_iff (hv : exactValue s = some v) :
    Smooth ovf s ↔ Exact.RunFits s ⟨.start, []⟩ := by
  refine ⟨fun hs => runFits_of_smooth (t := []) hs rfl (Comp.ends_pure.2 rfl) holds_init,
    fun hfits => ⟨?_, fun caller info => fitsTop_of_runFits hfits hv⟩⟩
  rintro t c u info rfl hc hscan hflag
  obtain ⟨st, hrun, -⟩ := Option.bind_eq_some_iff.1 hv
  exact digitFits_of_runFits hfits hrun hc hscan hflag

end Calc

end DemoClass
