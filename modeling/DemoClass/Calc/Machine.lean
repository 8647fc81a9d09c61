import DemoClass.Lib.Comp
import Mathlib.Algebra.Order.Ring.Int

/-!
# The calculator (`calc.c`)

`calc_main` reads an expression character by character and keeps a stack of numbers, a
stack of operators and a flag that says whether the last token was a number.  All
three stay in the `struct calc_info` between two calls.

A string is the list of the characters in front of its NUL.  The stacks are lists with
the top in front (`stack.c` keeps them in a doubly linked list with its first node on
top).  A result that does not fit into an `int` is outside of the language; what
happens then is the parameter `ovf`, any outcome with a value of `int` or a fault.
-/

namespace DemoClass

namespace Calc

/-- The numbers of an `int`. -/
def InInt (n : ℤ) : Prop := -2147483648 ≤ n ∧ n ≤ 2147483647

instance (n : ℤ) : Decidable (InInt n) := inferInstanceAs (Decidable (_ ∧ _))

/-- `num_t` -/
abbrev CInt := {n : ℤ // InInt n}

/-- `enum FLAG_T` -/
inductive Flag
  | OPR
  | NUM
  deriving DecidableEq

/-- `struct calc_info` without `cur` and `calc`. -/
structure CalcInfo where
  num : List CInt
  opr : List Char
  flag : Flag
  deriving DecidableEq

/-- What ends the program. -/
inductive Fault
  /-- a division that traps -/
  | divide
  /-- a result that does not fit into an `int` -/
  | overflow
  /-- the use of `ret` without a value -/
  | uninit
  deriving DecidableEq

/-- What `calc_init` leaves. -/
def calcInit : CalcInfo := ⟨[], [], .OPR⟩

/-- `opr2level` -/
def opr2level (c : Char) : ℕ :=
  if c = '*' ∨ c = '/' ∨ c = '%' then 2
  else if c = '+' ∨ c = '-' then 1
  else 0

/-- The digit that a character stands for. -/
def digit (c : Char) : ℤ := (c.toNat : ℤ) - ('0'.toNat : ℤ)

/-- The characters `'0' ... '9'`. -/
def IsDigit (c : Char) : Prop := '0'.toNat ≤ c.toNat ∧ c.toNat ≤ '9'.toNat

instance (c : Char) : Decidable (IsDigit c) := inferInstanceAs (Decidable (_ ∧ _))

variable (ovf : ℤ → Except Fault CInt)

/-- The value of an arithmetic operation on `int`. -/
def toCInt (n : ℤ) : Comp Fault CInt :=
  if h : InInt n then pure ⟨n, h⟩ else Comp.ofExcept (ovf n)

/-- `num_handle`, which has no error exit. -/
def numHandle (c : Char) (info : CalcInfo) : Comp Fault CalcInfo := do
  let n ← toCInt ovf (digit c)
  match info.flag, info.num with
  | .OPR, num => return { info with flag := .NUM, num := n :: num }
  | .NUM, prev_n :: num =>
    let m ← toCInt ovf (prev_n.1 * 10)
    let n ← toCInt ovf (n.1 + m.1)
    return { info with num := n :: num }
  | .NUM, [] => do
    -- the pop fails and leaves `prev_n` at 0
    let n ← toCInt ovf (n.1 + 0 * 10)
    return { info with num := [n] }

/-- The operation of an operator, `none` for a division by zero. -/
def apply (opr : Char) (a b : CInt) : Comp Fault (Option CInt) :=
  if opr = '+' then some <$> toCInt ovf (a.1 + b.1)
  else if opr = '-' then some <$> toCInt ovf (a.1 - b.1)
  else if opr = '*' then some <$> toCInt ovf (a.1 * b.1)
  else if opr = '/' then
    if b.1 = 0 then pure none
    else if InInt (a.1.tdiv b.1) then some <$> toCInt ovf (a.1.tdiv b.1)
    else Comp.fault .divide
  else if opr = '%' then
    -- the remainder is computed together with the quotient
    if b.1 = 0 ∨ ¬ InInt (a.1.tdiv b.1) then Comp.fault .divide
    else some <$> toCInt ovf (a.1.tmod b.1)
  else Comp.fault .uninit

/-- `do_stack`: its return value and the new stacks. -/
def doStack (info : CalcInfo) : Comp Fault (ℤ × CalcInfo) :=
  match info.num with
  | [] => pure (-1, info)
  | [_] => pure (-1, { info with num := [] })
  | b :: a :: num =>
    match info.opr with
    | [] => pure (-2, { info with num := num })
    | opr :: oprs => do
      match ← apply ovf opr a b with
      | none => return (-3, { info with num := num, opr := oprs })
      | some ret => return (0, { info with num := ret :: num, opr := oprs })

/-- One round of the loop of `opr_handle`. -/
def oprHandleBody (c : Char) (info : CalcInfo) : Comp Fault (CalcInfo ⊕ (ℤ × CalcInfo)) :=
  match info.opr with
  | [] => pure (.inr (0, { info with opr := [c] }))
  | top_c :: oprs =>
    if opr2level top_c < opr2level c then
      pure (.inr (0, { info with opr := c :: top_c :: oprs }))
    else do
      let (ret, info) ← doStack ovf info
      if ret < 0 then return .inr (-1, info) else return .inl info

/-- The second part of `opr_handle`. -/
def oprPush (c : Char) (info : CalcInfo) : Comp Fault (ℤ × CalcInfo) :=
  match info.opr with
  | [] => pure (0, { info with opr := [c] })
  | _ :: _ => Comp.loop (oprHandleBody ovf c) info

/-- `opr_handle` -/
def oprHandle (c : Char) (info : CalcInfo) : Comp Fault (ℤ × CalcInfo) :=
  match info.flag with
  | .NUM => oprPush ovf c { info with flag := .OPR }
  | .OPR =>
    if c = '+' then pure (0, info)
    else if c = '-' then
      pure (0, { info with num := ⟨0, by decide⟩ :: info.num, opr := c :: info.opr })
    else oprPush ovf c info

/-- One round of the loop of `bracket_handle`, which drops the return value of
`do_stack`. -/
def bracketHandleBody (info : CalcInfo) : Comp Fault (CalcInfo ⊕ (ℤ × CalcInfo)) :=
  match info.opr with
  | [] => pure (.inr (-1, info))
  | top_c :: oprs =>
    if top_c = '(' then pure (.inr (0, { info with opr := oprs }))
    else do
      let (_, info) ← doStack ovf info
      return .inl info

/-- `bracket_handle` -/
def bracketHandle (opr : Char) (info : CalcInfo) : Comp Fault (ℤ × CalcInfo) :=
  if opr = '(' then pure (0, { info with opr := opr :: info.opr })
  else if opr = ')' then Comp.loop (bracketHandleBody ovf) info
  else pure (0, info)

/-- One character of the loop of `calc_main`: the value that it returns, if it does. -/
def charHandle (c : Char) (info : CalcInfo) : Comp Fault (Option ℤ × CalcInfo) :=
  if IsDigit c then do
    return (none, ← numHandle ovf c info)
  else if c = '+' ∨ c = '-' ∨ c = '*' ∨ c = '/' ∨ c = '%' then do
    let (iret, info) ← oprHandle ovf c info
    return (if iret < 0 then some iret else none, info)
  else if c = ' ' ∨ c = '\n' ∨ c = '\t' then
    pure (none, info)
  else if c = '(' ∨ c = ')' then do
    let (iret, info) ← bracketHandle ovf c info
    return (if iret < 0 then some iret else none, info)
  else
    pure (some (-1), info)

/-- The first loop of `calc_main`. -/
def scan : List Char → CalcInfo → Comp Fault (Option ℤ × CalcInfo)
  | [], info => pure (none, info)
  | c :: cs, info => do
    let (ret, info) ← charHandle ovf c info
    match ret with
    | some ret => return (some ret, info)
    | none => scan cs info

/-- One round of the second loop of `calc_main`. -/
def drainBody (info : CalcInfo) : Comp Fault (CalcInfo ⊕ (Option ℤ × CalcInfo)) :=
  match info.opr with
  | [] => pure (.inr (none, info))
  | top_c :: _ =>
    if top_c = '(' then pure (.inr (some (-3), info))
    else do
      let (ret, info) ← doStack ovf info
      if ret < 0 then return .inr (some (-2), info) else return .inl info

/-- The end of `calc_main`, after the loop over the characters. -/
def drain (info : CalcInfo) : Comp Fault (ℤ × CalcInfo) := do
  let (ret, info) ← Comp.loop (drainBody ovf) info
  match ret, info.num with
  | some ret, _ => return (ret, info)
  | none, [] => return (0, info)
  | none, ret :: num => return (ret.1, { info with num := num })

/-- `calc_main` -/
def calcMain (info : CalcInfo) (expr : List Char) : Comp Fault (ℤ × CalcInfo) := do
  let (ret, info) ← scan ovf expr info
  match ret with
  | some ret => return (ret, info)
  | none => drain ovf info

/-! ### Evaluation -/

variable {ovf}

lemma toCInt_of {n : ℤ} (h : InInt n) : toCInt ovf n = pure ⟨n, h⟩ := dif_pos h

/-- `do_stack` applies the operator on top. -/
lemma doStack_eq {num : List CInt} {opr : List Char} {flag : Flag} {a b v : CInt} {c : Char}
    (h : apply ovf c a b = pure (some v)) :
    doStack ovf ⟨b :: a :: num, c :: opr, flag⟩ = pure (0, ⟨v :: num, opr, flag⟩) := by
  simp [doStack, h]

/-- An operator that has a level is no bracket. -/
lemma ne_open_of_level {c : Char} (h : 1 ≤ opr2level c) : c ≠ '(' := by
  rintro rfl
  exact absurd h (by decide)

lemma oprHandleBody_of_le {c top_c : Char} (hc : ¬ opr2level top_c < opr2level c)
    (num : List CInt) (opr : List Char) (flag : Flag) :
    oprHandleBody ovf c ⟨num, top_c :: opr, flag⟩ =
      doStack ovf ⟨num, top_c :: opr, flag⟩ >>= fun p =>
        if p.1 < 0 then pure (.inr (-1, p.2)) else pure (.inl p.2) := if_neg hc

lemma bracketHandleBody_of_ne {c : Char} (hc : c ≠ '(') (num : List CInt) (opr : List Char)
    (flag : Flag) : bracketHandleBody ovf ⟨num, c :: opr, flag⟩ =
      doStack ovf ⟨num, c :: opr, flag⟩ >>= fun p => pure (.inl p.2) := if_neg hc

lemma drainBody_of_ne {c : Char} (hc : c ≠ '(') (num : List CInt) (opr : List Char)
    (flag : Flag) : drainBody ovf ⟨num, c :: opr, flag⟩ =
      doStack ovf ⟨num, c :: opr, flag⟩ >>= fun p =>
        if p.1 < 0 then pure (.inr (some (-2), p.2)) else pure (.inl p.2) := if_neg hc

lemma oprPush_ends_iff {c : Char} {info : CalcInfo} {r : Except Fault (ℤ × CalcInfo)} :
    (oprPush ovf c info).Ends r ↔ (Comp.loop (oprHandleBody ovf c) info).Ends r := by
  match info with
  | ⟨num, [], flag⟩ =>
      have hbody : (oprHandleBody ovf c ⟨num, [], flag⟩).Ends
          (.ok (.inr (0, ⟨num, [c], flag⟩))) := by simp [oprHandleBody]
      constructor
      · intro h
        obtain rfl : r = .ok (0, ⟨num, [c], flag⟩) := by simpa [oprPush] using h
        exact hbody.loop_inr
      · intro h
        rw [h.unique hbody.loop_inr]
        simp [oprPush]
  | ⟨_, _ :: _, _⟩ => exact Iff.rfl

lemma charHandle_digit {c : Char} {info info' : CalcInfo} (hc : IsDigit c)
    (h : numHandle ovf c info = pure info') :
    charHandle ovf c info = pure (none, info') := by
  simp [charHandle, hc, h]

lemma charHandle_opr {c : Char} (hc : c = '*' ∨ c = '/' ∨ c = '%' ∨ c = '+' ∨ c = '-')
    (info : CalcInfo) : charHandle ovf c info = oprHandle ovf c info >>= fun p =>
      pure (if p.1 < 0 then some p.1 else none, p.2) := by
  rcases hc with rfl | rfl | rfl | rfl | rfl <;> rfl

lemma charHandle_opr_ends {c : Char} {info info' : CalcInfo}
    (hc : c = '*' ∨ c = '/' ∨ c = '%' ∨ c = '+' ∨ c = '-')
    (h : (oprHandle ovf c info).Ends (.ok (0, info'))) :
    (charHandle ovf c info).Ends (.ok (none, info')) := by
  rw [charHandle_opr hc]
  exact h.bind (by simp)

lemma charHandle_close (info : CalcInfo) :
    charHandle ovf ')' info = Comp.loop (bracketHandleBody ovf) info >>= fun p =>
      pure (if p.1 < 0 then some p.1 else none, p.2) := rfl

/-- An operator that is no sign goes to the second part of `opr_handle`. -/
lemma oprHandle_of_binary {c : Char} {info : CalcInfo}
    (h : info.flag = .NUM ∨ c ≠ '+' ∧ c ≠ '-') :
    oprHandle ovf c info = oprPush ovf c { info with flag := .OPR } := by
  match info with
  | ⟨num, opr, .NUM⟩ => rfl
  | ⟨num, opr, .OPR⟩ =>
      obtain ⟨hplus, hminus⟩ := h.resolve_left (by simp)
      simp [oprHandle, hplus, hminus]

/-- Any other is a sign. -/
lemma sign_of_not_binary {c : Char} {info : CalcInfo}
    (h : ¬ (info.flag = .NUM ∨ c ≠ '+' ∧ c ≠ '-')) : info.flag = .OPR ∧ (c = '+' ∨ c = '-') := by
  rw [not_or, not_and_or, not_not, not_not] at h
  refine ⟨?_, h.2⟩
  cases hflag : info.flag with
  | OPR => rfl
  | NUM => exact absurd hflag h.1

lemma scan_cons_ends {c : Char} {t : List Char} {info info' : CalcInfo}
    {r : Except Fault (Option ℤ × CalcInfo)}
    (h : (charHandle ovf c info).Ends (.ok (none, info'))) (hr : (scan ovf t info').Ends r) :
    (scan ovf (c :: t) info).Ends r := h.bind hr

lemma scan_cons_none {c : Char} {t : List Char} {info info' : CalcInfo} :
    (scan ovf (c :: t) info).Ends (.ok (none, info')) ↔
      ∃ i, (charHandle ovf c info).Ends (.ok (none, i)) ∧
        (scan ovf t i).Ends (.ok (none, info')) := by
  constructor
  · intro h
    obtain ⟨⟨ret, i⟩, hchar, hrest⟩ := Comp.ends_bind_ok_iff.1 h
    cases ret with
    | none => exact ⟨i, hchar, hrest⟩
    | some ret => simp at hrest
  · rintro ⟨i, hchar, hrest⟩
    exact scan_cons_ends hchar hrest

end Calc

end DemoClass
