import DemoClass.Calc.Machine
import DemoClass.Dlist.Containers
import DemoClass.Lib.Simulation

/-!
# The calculator in memory (`calc.c` on `stack.c`)

`calc_main` keeps its numbers and operators in two `stack_info`, lists of `dlist.c` in one memory
that every push allocates from.  Here the functions are given with the calls of `NUM_PUSH`,
`NUM_POP`, `OPR_PUSH`, `OPR_TOP`, `OPR_POP` and `OPR_IS_EMPTY` on these stacks.  They simulate the
functions on sequences (`calcMain_simulates`), so that a whole run of the program, from `calc_init`
to `calc_destroy`, returns what these return, never reaches a cell that is not allocated, and gives
all its memory back (`testMain_simulates`).
-/

namespace DemoClass

namespace Calc

namespace Memory

open Dlist

/-- What ends the program. -/
inductive ProgFault where
  | memory (e : MemFault)
  | calc (e : Fault)
deriving DecidableEq

/-- The representations of `num_t` and `char`, what `malloc` returns, and what is in a variable
that was not initialised. -/
structure Platform (ι β : Type) where
  num : Layout CInt β
  opr : Layout Char β
  malloc : Malloc ι
  num₀ : CInt
  opr₀ : Char

/-- `struct calc_info` without `cur` and `calc`, in the memory `h`. -/
structure State (ι β : Type) where
  h : Store ι β
  num : Object ι
  opr : Object ι
  flag : Flag

variable {ι β : Type} [DecidableEq ι] (P : Platform ι β) (ovf : ℤ → Except Fault CInt)

/-! ### The macros of `calc.h` -/

/-- `NUM_PUSH` -/
def numPush (n : CInt) (s : State ι β) : Comp ProgFault (State ι β) := do
  let r ← (Kind.stack.pushValue P.num P.malloc s.h s.num n).mapFault .memory
  return { s with h := r.1 }

/-- `NUM_POP`: what it returns, and the variable behind it. -/
def numPop (n : CInt) (s : State ι β) : Comp ProgFault (ℤ × CInt × State ι β) := do
  let r ← (Kind.stack.popValue P.num s.h s.num n).mapFault .memory
  return (r.2.2, r.2.1, { s with h := r.1 })

/-- `OPR_PUSH` -/
def oprPush (c : Char) (s : State ι β) : Comp ProgFault (State ι β) := do
  let r ← (Kind.stack.pushValue P.opr P.malloc s.h s.opr c).mapFault .memory
  return { s with h := r.1 }

/-- `OPR_TOP` -/
def oprTop (c : Char) (s : State ι β) : Comp ProgFault (ℤ × Char) := do
  let r ← (Kind.stack.topValue P.opr s.h s.opr c).mapFault .memory
  return (r.2, r.1)

/-- `OPR_POP` -/
def oprPop (c : Char) (s : State ι β) : Comp ProgFault (ℤ × Char × State ι β) := do
  let r ← (Kind.stack.popValue P.opr s.h s.opr c).mapFault .memory
  return (r.2.2, r.2.1, { s with h := r.1 })

/-- `OPR_IS_EMPTY` -/
def oprIsEmpty (s : State ι β) : Comp ProgFault ℤ :=
  (Kind.stack.isEmpty s.h s.opr.info).mapFault .memory

/-- An arithmetic operation on `int`. -/
def arith (n : ℤ) : Comp ProgFault CInt := (toCInt ovf n).mapFault .calc

/-! ### The functions of `calc.c` -/

lemma inInt_zero : InInt 0 := by decide

/-- `num_handle` -/
def numHandle (c : Char) (s : State ι β) : Comp ProgFault (State ι β) := do
  let n ← arith ovf (digit c)
  match s.flag with
  | .OPR => numPush P n { s with flag := .NUM }
  | .NUM =>
    let (_, prev_n, s) ← numPop P ⟨0, inInt_zero⟩ s
    let m ← arith ovf (prev_n.1 * 10)
    let n ← arith ovf (n.1 + m.1)
    numPush P n s

/-- `do_stack` -/
def doStack (s : State ι β) : Comp ProgFault (ℤ × State ι β) := do
  let (r, b, s) ← numPop P P.num₀ s
  if r < 0 then return (-1, s)
  let (r, a, s) ← numPop P P.num₀ s
  if r < 0 then return (-1, s)
  let (r, opr, s) ← oprPop P P.opr₀ s
  if r < 0 then return (-2, s)
  match ← (apply ovf opr a b).mapFault .calc with
  | none => return (-3, s)
  | some ret =>
    let s ← numPush P ret s
    return (0, s)

/-- One round of the loop of `opr_handle`, with its `top_c`. -/
def oprHandleBody (c : Char) (w : Char × State ι β) :
    Comp ProgFault ((Char × State ι β) ⊕ (ℤ × State ι β)) := do
  let (r, top_c) ← oprTop P w.1 w.2
  if r < 0 then
    let s ← oprPush P c w.2
    return .inr (0, s)
  else if opr2level top_c < opr2level c then
    let s ← oprPush P c w.2
    return .inr (0, s)
  else
    let (r, s) ← doStack P ovf w.2
    if r < 0 then return .inr (-1, s) else return .inl (top_c, s)

/-- The second part of `opr_handle`. -/
def oprEnter (c : Char) (s : State ι β) : Comp ProgFault (ℤ × State ι β) := do
  let empty ← oprIsEmpty s
  if empty ≠ 0 then
    let s ← oprPush P c s
    return (0, s)
  else Comp.loop (oprHandleBody P ovf c) (P.opr₀, s)

/-- `opr_handle` -/
def oprHandle (c : Char) (s : State ι β) : Comp ProgFault (ℤ × State ι β) :=
  match s.flag with
  | .NUM => oprEnter P ovf c { s with flag := .OPR }
  | .OPR =>
    if c = '+' then pure (0, s)
    else if c = '-' then do
      let s ← numPush P ⟨0, inInt_zero⟩ s
      let s ← oprPush P c s
      return (0, s)
    else oprEnter P ovf c s

/-- One round of the loop of `bracket_handle`, with its `top_c`. -/
def bracketHandleBody (w : Char × State ι β) :
    Comp ProgFault ((Char × State ι β) ⊕ (ℤ × State ι β)) := do
  let (r, top_c) ← oprTop P w.1 w.2
  if r < 0 then return .inr (-1, w.2)
  else if top_c = '(' then
    let (_, _, s) ← oprPop P top_c w.2
    return .inr (0, s)
  else
    let (_, s) ← doStack P ovf w.2
    return .inl (top_c, s)

/-- `bracket_handle` -/
def bracketHandle (opr : Char) (s : State ι β) : Comp ProgFault (ℤ × State ι β) :=
  if opr = '(' then do
    let s ← oprPush P opr s
    return (0, s)
  else if opr = ')' then Comp.loop (bracketHandleBody P ovf) (P.opr₀, s)
  else pure (0, s)

/-- One character of the loop of `calc_main`: the value that it returns, if it does. -/
def charHandle (c : Char) (s : State ι β) : Comp ProgFault (Option ℤ × State ι β) :=
  if IsDigit c then do
    let s ← numHandle P ovf c s
    return (none, s)
  else if c = '+' ∨ c = '-' ∨ c = '*' ∨ c = '/' ∨ c = '%' then do
    let (iret, s) ← oprHandle P ovf c s
    return (if iret < 0 then some iret else none, s)
  else if c = ' ' ∨ c = '\n' ∨ c = '\t' then
    pure (none, s)
  else if c = '(' ∨ c = ')' then do
    let (iret, s) ← bracketHandle P ovf c s
    return (if iret < 0 then some iret else none, s)
  else
    pure (some (-1), s)

/-- The first loop of `calc_main`. -/
def scan : List Char → State ι β → Comp ProgFault (Option ℤ × State ι β)
  | [], s => pure (none, s)
  | c :: cs, s => do
    let (ret, s) ← charHandle P ovf c s
    match ret with
    | some ret => return (some ret, s)
    | none => scan cs s

/-- One round of the second loop of `calc_main`. -/
def drainBody (s : State ι β) : Comp ProgFault (State ι β ⊕ (Option ℤ × State ι β)) := do
  let empty ← oprIsEmpty s
  if empty ≠ 0 then return .inr (none, s)
  else
    let (_, top_c) ← oprTop P (Char.ofNat 0) s
    if top_c = '(' then return .inr (some (-3), s)
    else
      let (ret, s) ← doStack P ovf s
      if ret < 0 then return .inr (some (-2), s) else return .inl s

/-- The end of `calc_main`, after the loop over the characters. -/
def drain (s : State ι β) : Comp ProgFault (ℤ × State ι β) := do
  let (ret, s) ← Comp.loop (drainBody P ovf) s
  match ret with
  | some ret => return (ret, s)
  | none =>
    let (_, ret, s) ← numPop P ⟨0, inInt_zero⟩ s
    return (ret.1, s)

/-- `calc_main` -/
def calcMain (s : State ι β) (expr : List Char) : Comp ProgFault (ℤ × State ι β) := do
  let (ret, s) ← scan P ovf expr s
  match ret with
  | some ret => return (ret, s)
  | none => drain P ovf s

/-! ### The values that the memory stands for -/

/-- The two stacks hold the numbers and the operators, and nothing else has changed since `h₀`. -/
def Rep (h₀ : Store ι β) (s : State ι β) (info : CalcInfo) : Prop :=
  Pair P.num P.opr h₀ s.num s.opr s.h info.num info.opr ∧ s.flag = info.flag

/-- The value that is returned, and the state behind it. -/
def Returned {ρ : Type} (h₀ : Store ι β) (u : ρ × State ι β) (v : ρ × CalcInfo) : Prop :=
  u.1 = v.1 ∧ Rep P h₀ u.2 v.2

variable {P} {ovf} {h₀ : Store ι β} {s : State ι β} {info : CalcInfo} {num : List CInt}
  {opr : List Char} {flag : Flag}

/-- What `malloc` has to do. -/
structure Platform.Works (P : Platform ι β) (h₀ : Store ι β) : Prop where
  malloc : P.malloc.Succeeds
  finite : {y | h₀.live y = true}.Finite

lemma Rep.numPush (hr : Rep P h₀ s ⟨num, opr, flag⟩) (hP : P.Works h₀) (n : CInt) :
    ∃ s', (numPush P n s).Ends (.ok s') ∧ Rep P h₀ s' ⟨n :: num, opr, flag⟩ := by
  obtain ⟨h', hends, hp⟩ := hr.1.push hP.malloc hP.finite .stack n
  exact ⟨_, (Comp.mapFault_ends_ok hends).bind (Comp.ends_pure.2 rfl), hp, hr.2⟩

lemma Rep.oprPush (hr : Rep P h₀ s ⟨num, opr, flag⟩) (hP : P.Works h₀) (c : Char) :
    ∃ s', (oprPush P c s).Ends (.ok s') ∧ Rep P h₀ s' ⟨num, c :: opr, flag⟩ := by
  obtain ⟨h', hends, hp⟩ := hr.1.symm.push hP.malloc hP.finite .stack c
  exact ⟨_, (Comp.mapFault_ends_ok hends).bind (Comp.ends_pure.2 rfl), hp.symm, hr.2⟩

lemma Rep.numPop_nil (hr : Rep P h₀ s ⟨[], opr, flag⟩) (n : CInt) :
    (numPop P n s).Ends (.ok (-1, n, s)) := by
  obtain ⟨xs, hh⟩ := hr.1.holding
  exact (Comp.mapFault_ends_ok (Kind.stack.popValue_nil hh n)).bind (Comp.ends_pure.2 rfl)

lemma Rep.numPop_cons {a : CInt} (hr : Rep P h₀ s ⟨a :: num, opr, flag⟩) (n : CInt) :
    ∃ s', (numPop P n s).Ends (.ok (0, a, s')) ∧ Rep P h₀ s' ⟨num, opr, flag⟩ := by
  obtain ⟨h', hends, hp⟩ := hr.1.pop .stack n
  exact ⟨_, (Comp.mapFault_ends_ok hends).bind (Comp.ends_pure.2 rfl), hp, hr.2⟩

lemma Rep.oprPop_nil (hr : Rep P h₀ s ⟨num, [], flag⟩) (c : Char) :
    (oprPop P c s).Ends (.ok (-1, c, s)) := by
  obtain ⟨xs, hh⟩ := hr.1.symm.holding
  exact (Comp.mapFault_ends_ok (Kind.stack.popValue_nil hh c)).bind (Comp.ends_pure.2 rfl)

lemma Rep.oprPop_cons {a : Char} (hr : Rep P h₀ s ⟨num, a :: opr, flag⟩) (c : Char) :
    ∃ s', (oprPop P c s).Ends (.ok (0, a, s')) ∧ Rep P h₀ s' ⟨num, opr, flag⟩ := by
  obtain ⟨h', hends, hp⟩ := hr.1.symm.pop .stack c
  exact ⟨_, (Comp.mapFault_ends_ok hends).bind (Comp.ends_pure.2 rfl), hp.symm, hr.2⟩

lemma Rep.oprTop_nil (hr : Rep P h₀ s ⟨num, [], flag⟩) (c : Char) :
    (oprTop P c s).Ends (.ok (-1, c)) := by
  obtain ⟨xs, hh⟩ := hr.1.symm.holding
  exact (Comp.mapFault_ends_ok (Kind.stack.topValue_nil hh c)).bind (Comp.ends_pure.2 rfl)

lemma Rep.oprTop_cons {a : Char} (hr : Rep P h₀ s ⟨num, a :: opr, flag⟩) (c : Char) :
    (oprTop P c s).Ends (.ok (0, a)) := by
  obtain ⟨xs, hh⟩ := hr.1.symm.holding
  exact (Comp.mapFault_ends_ok (Kind.stack.topValue_cons hh c)).bind (Comp.ends_pure.2 rfl)

lemma Rep.oprIsEmpty (hr : Rep P h₀ s info) :
    (oprIsEmpty s).Ends (.ok (if info.opr = [] then 1 else 0)) := by
  obtain ⟨xs, hh⟩ := hr.1.symm.holding
  exact Comp.mapFault_ends_ok (Kind.stack.isEmpty_ends hh)

/-! ### Function by function -/

section Functions

variable (hP : P.Works h₀)

lemma arith_simulates (n : ℤ) : Comp.Simulates .calc Eq (arith ovf n) (toCInt ovf n) :=
  Comp.Simulates.mapFault _

include hP

lemma numHandle_simulates (c : Char) (hr : Rep P h₀ s info) :
    Comp.Simulates .calc (Rep P h₀) (numHandle P ovf c s) (Calc.numHandle ovf c info) := by
  obtain ⟨num, opr, flag⟩ := info
  refine (arith_simulates (digit c)).bind ?_
  rintro n _ rfl
  have hflag : s.flag = flag := hr.2
  cases flag with
  | OPR =>
      simp only [hflag]
      have hr' : Rep P h₀ { s with flag := .NUM } ⟨num, opr, .NUM⟩ := ⟨hr.1, rfl⟩
      obtain ⟨s', hs', hrep⟩ := hr'.numPush hP n
      exact Comp.Simulates.of_ends hs' (Comp.ends_pure.2 rfl) hrep
  | NUM =>
      simp only [hflag]
      cases num with
      | nil =>
          refine (hr.numPop_nil _).simulates ?_
          have hzero : (arith ovf (0 * 10)).Ends (.ok ⟨0, by decide⟩) :=
            Comp.mapFault_ends_ok (by rw [toCInt_of (by decide)]; simp)
          refine hzero.simulates ((arith_simulates _).bind ?_)
          rintro m _ rfl
          obtain ⟨s', hs', hrep⟩ := hr.numPush hP m
          exact Comp.Simulates.of_ends hs' (Comp.ends_pure.2 rfl) hrep
      | cons prev_n num =>
          obtain ⟨s₁, hs₁, hr₁⟩ := hr.numPop_cons ⟨0, by decide⟩
          refine hs₁.simulates ((arith_simulates _).bind ?_)
          rintro m _ rfl
          refine (arith_simulates _).bind ?_
          rintro k _ rfl
          obtain ⟨s₂, hs₂, hr₂⟩ := hr₁.numPush hP k
          exact Comp.Simulates.of_ends hs₂ (Comp.ends_pure.2 rfl) hr₂

lemma doStack_simulates (hr : Rep P h₀ s info) :
    Comp.Simulates .calc (Returned P h₀) (doStack P ovf s) (Calc.doStack ovf info) := by
  obtain ⟨num, opr, flag⟩ := info
  cases num with
  | nil =>
      refine (hr.numPop_nil _).simulates ?_
      exact Comp.Simulates.pure ⟨rfl, hr⟩
  | cons b num =>
      obtain ⟨s₁, hs₁, hr₁⟩ := hr.numPop_cons P.num₀
      refine hs₁.simulates ?_
      cases num with
      | nil =>
          refine (hr₁.numPop_nil _).simulates ?_
          exact Comp.Simulates.pure ⟨rfl, hr₁⟩
      | cons a num =>
          obtain ⟨s₂, hs₂, hr₂⟩ := hr₁.numPop_cons P.num₀
          refine hs₂.simulates ?_
          cases opr with
          | nil =>
              refine (hr₂.oprPop_nil _).simulates ?_
              exact Comp.Simulates.pure ⟨rfl, hr₂⟩
          | cons c opr =>
              obtain ⟨s₃, hs₃, hr₃⟩ := hr₂.oprPop_cons P.opr₀
              refine hs₃.simulates ((Comp.Simulates.mapFault (apply ovf c a b)).bind ?_)
              rintro (_ | ret) _ rfl
              · exact Comp.Simulates.pure ⟨rfl, hr₃⟩
              · obtain ⟨s₄, hs₄, hr₄⟩ := hr₃.numPush hP ret
                exact hs₄.simulates (Comp.Simulates.pure ⟨rfl, hr₄⟩)

lemma oprHandleBody_simulates (c : Char) (w : Char × State ι β) (hr : Rep P h₀ w.2 info) :
    Comp.Simulates .calc (Comp.RoundRel (fun w info => Rep P h₀ w.2 info) (Returned P h₀))
      (oprHandleBody P ovf c w) (Calc.oprHandleBody ovf c info) := by
  obtain ⟨num, opr, flag⟩ := info
  cases opr with
  | nil =>
      refine (hr.oprTop_nil w.1).simulates ?_
      obtain ⟨s₁, hs₁, hr₁⟩ := hr.oprPush hP c
      exact hs₁.simulates (Comp.Simulates.pure ⟨rfl, hr₁⟩)
  | cons top_c opr =>
      refine (hr.oprTop_cons w.1).simulates ?_
      by_cases hlevel : opr2level top_c < opr2level c
      · obtain ⟨s₁, hs₁, hr₁⟩ := hr.oprPush hP c
        simp only [Calc.oprHandleBody, hlevel, if_true]
        exact hs₁.simulates (Comp.Simulates.pure ⟨rfl, hr₁⟩)
      · simp only [Calc.oprHandleBody, hlevel, if_false]
        refine (doStack_simulates hP hr).bind ?_
        rintro ⟨r, s₁⟩ ⟨_, info₁⟩ ⟨rfl, hr₁⟩
        by_cases hneg : r < 0
        · simp only [hneg, if_true]
          exact Comp.Simulates.pure ⟨rfl, hr₁⟩
        · simp only [hneg, if_false]
          exact Comp.Simulates.pure hr₁

lemma oprEnter_simulates (c : Char) (hr : Rep P h₀ s info) :
    Comp.Simulates .calc (Returned P h₀) (oprEnter P ovf c s) (Calc.oprPush ovf c info) := by
  obtain ⟨num, opr, flag⟩ := info
  refine hr.oprIsEmpty.simulates ?_
  cases opr with
  | nil =>
      obtain ⟨s₁, hs₁, hr₁⟩ := hr.oprPush hP c
      exact hs₁.simulates (Comp.Simulates.pure ⟨rfl, hr₁⟩)
  | cons top_c opr =>
      exact Comp.Simulates.loop (fun w info hw => oprHandleBody_simulates hP c w hw) hr

lemma oprHandle_simulates (c : Char) (hr : Rep P h₀ s info) :
    Comp.Simulates .calc (Returned P h₀) (oprHandle P ovf c s) (Calc.oprHandle ovf c info) := by
  obtain ⟨num, opr, flag⟩ := info
  have hflag : s.flag = flag := hr.2
  cases flag with
  | NUM =>
      simp only [oprHandle, Calc.oprHandle, hflag]
      exact oprEnter_simulates hP c ⟨hr.1, rfl⟩
  | OPR =>
      simp only [oprHandle, Calc.oprHandle, hflag]
      by_cases hplus : c = '+'
      · simp only [hplus, if_true]
        exact Comp.Simulates.pure ⟨rfl, hr⟩
      · by_cases hminus : c = '-'
        · subst hminus
          rw [if_neg hplus, if_pos rfl, if_neg hplus, if_pos rfl]
          obtain ⟨s₁, hs₁, hr₁⟩ := hr.numPush hP ⟨0, by decide⟩
          obtain ⟨s₂, hs₂, hr₂⟩ := hr₁.oprPush hP '-'
          exact hs₁.simulates (hs₂.simulates (Comp.Simulates.pure ⟨rfl, hr₂⟩))
        · simp only [hplus, hminus, if_false]
          exact oprEnter_simulates hP c hr

lemma bracketHandleBody_simulates (w : Char × State ι β) (hr : Rep P h₀ w.2 info) :
    Comp.Simulates .calc (Comp.RoundRel (fun w info => Rep P h₀ w.2 info) (Returned P h₀))
      (bracketHandleBody P ovf w) (Calc.bracketHandleBody ovf info) := by
  obtain ⟨num, opr, flag⟩ := info
  cases opr with
  | nil =>
      refine (hr.oprTop_nil w.1).simulates ?_
      exact Comp.Simulates.pure ⟨rfl, hr⟩
  | cons top_c opr =>
      refine (hr.oprTop_cons w.1).simulates ?_
      by_cases hopen : top_c = '('
      · simp only [Calc.bracketHandleBody, hopen, if_true]
        obtain ⟨s₁, hs₁, hr₁⟩ := hr.oprPop_cons '('
        exact hs₁.simulates (Comp.Simulates.pure ⟨rfl, hr₁⟩)
      · simp only [Calc.bracketHandleBody, hopen, if_false]
        refine (doStack_simulates hP hr).bind ?_
        rintro ⟨r, s₁⟩ ⟨_, info₁⟩ ⟨-, hr₁⟩
        exact Comp.Simulates.pure hr₁

lemma bracketHandle_simulates (c : Char) (hr : Rep P h₀ s info) :
    Comp.Simulates .calc (Returned P h₀) (bracketHandle P ovf c s)
      (Calc.bracketHandle ovf c info) := by
  by_cases hopen : c = '('
  · simp only [bracketHandle, Calc.bracketHandle, hopen, if_true]
    obtain ⟨s₁, hs₁, hr₁⟩ := hr.oprPush hP '('
    exact hs₁.simulates (Comp.Simulates.pure ⟨rfl, hr₁⟩)
  · by_cases hclose : c = ')'
    · rw [bracketHandle, Calc.bracketHandle, if_neg hopen, if_pos hclose, if_neg hopen,
        if_pos hclose]
      exact Comp.Simulates.loop (fun w info hw => bracketHandleBody_simulates hP w hw) hr
    · simp only [bracketHandle, Calc.bracketHandle, hopen, hclose, if_false]
      exact Comp.Simulates.pure ⟨rfl, hr⟩

lemma charHandle_simulates (c : Char) (hr : Rep P h₀ s info) :
    Comp.Simulates .calc (Returned P h₀) (charHandle P ovf c s) (Calc.charHandle ovf c info) := by
  unfold charHandle Calc.charHandle
  split_ifs
  · refine (numHandle_simulates hP c hr).bind fun s₁ info₁ hr₁ => ?_
    exact Comp.Simulates.pure ⟨rfl, hr₁⟩
  · refine (oprHandle_simulates hP c hr).bind ?_
    rintro ⟨r, s₁⟩ ⟨_, info₁⟩ ⟨rfl, hr₁⟩
    exact Comp.Simulates.pure ⟨rfl, hr₁⟩
  · exact Comp.Simulates.pure ⟨rfl, hr⟩
  · refine (bracketHandle_simulates hP c hr).bind ?_
    rintro ⟨r, s₁⟩ ⟨_, info₁⟩ ⟨rfl, hr₁⟩
    exact Comp.Simulates.pure ⟨rfl, hr₁⟩
  · exact Comp.Simulates.pure ⟨rfl, hr⟩

lemma scan_simulates (expr : List Char) (hr : Rep P h₀ s info) :
    Comp.Simulates .calc (Returned P h₀) (scan P ovf expr s) (Calc.scan ovf expr info) := by
  induction expr generalizing s info with
  | nil => exact Comp.Simulates.pure ⟨rfl, hr⟩
  | cons c cs ih =>
      refine (charHandle_simulates hP c hr).bind ?_
      rintro ⟨_ | ret, s₁⟩ ⟨_, info₁⟩ ⟨rfl, hr₁⟩
      · exact ih hr₁
      · exact Comp.Simulates.pure ⟨rfl, hr₁⟩

lemma drainBody_simulates (hr : Rep P h₀ s info) :
    Comp.Simulates .calc (Comp.RoundRel (Rep P h₀) (Returned P h₀)) (drainBody P ovf s)
      (Calc.drainBody ovf info) := by
  obtain ⟨num, opr, flag⟩ := info
  refine hr.oprIsEmpty.simulates ?_
  cases opr with
  | nil => exact Comp.Simulates.pure ⟨rfl, hr⟩
  | cons top_c opr =>
      simp only [reduceCtorEq, if_false, ne_eq, not_true_eq_false]
      refine (hr.oprTop_cons _).simulates ?_
      by_cases hopen : top_c = '('
      · subst hopen
        exact Comp.Simulates.pure ⟨rfl, hr⟩
      · simp only [Calc.drainBody, hopen, if_false]
        refine (doStack_simulates hP hr).bind ?_
        rintro ⟨r, s₁⟩ ⟨_, info₁⟩ ⟨rfl, hr₁⟩
        by_cases hneg : r < 0
        · simp only [hneg, if_true]
          exact Comp.Simulates.pure ⟨rfl, hr₁⟩
        · simp only [hneg, if_false]
          exact Comp.Simulates.pure hr₁

lemma drain_simulates (hr : Rep P h₀ s info) :
    Comp.Simulates .calc (Returned P h₀) (drain P ovf s) (Calc.drain ovf info) := by
  refine (Comp.Simulates.loop (fun s info hs => drainBody_simulates hP hs) hr).bind ?_
  rintro ⟨_ | ret, s₁⟩ ⟨_, num, opr, flag⟩ ⟨rfl, hr₁⟩
  · cases num with
    | nil =>
        refine (hr₁.numPop_nil _).simulates ?_
        exact Comp.Simulates.pure ⟨rfl, hr₁⟩
    | cons a num =>
        obtain ⟨s₂, hs₂, hr₂⟩ := hr₁.numPop_cons ⟨0, by decide⟩
        exact hs₂.simulates (Comp.Simulates.pure ⟨rfl, hr₂⟩)
  · exact Comp.Simulates.pure ⟨rfl, hr₁⟩

/-- **`calc_main` in memory** does what it does on sequences. -/
theorem calcMain_simulates (expr : List Char) (hr : Rep P h₀ s info) :
    Comp.Simulates .calc (Returned P h₀) (calcMain P ovf s expr)
      (Calc.calcMain ovf info expr) := by
  refine (scan_simulates hP expr hr).bind ?_
  rintro ⟨_ | ret, s₁⟩ ⟨_, info₁⟩ ⟨rfl, hr₁⟩
  · exact drain_simulates hP hr₁
  · exact Comp.Simulates.pure ⟨rfl, hr₁⟩

end Functions

/-! ### The whole program -/

variable (P) (ovf)

/-- `calc_init` -/
def calcInit (h : Store ι β) : Comp ProgFault (State ι β) :=
  Comp.mapFault .memory do
    let num ← alloc P.malloc h
    let opr ← alloc P.malloc num.1
    let r ← Kind.stack.initialise P.malloc opr.1 num.2
    let s ← Kind.stack.initialise P.malloc r.1 opr.2
    return ⟨s.1, r.2, s.2, .OPR⟩

/-- `calc_destroy` -/
def calcDestroy (s : State ι β) : Comp ProgFault (Store ι β) :=
  Comp.mapFault .memory do
    let h ← destroy s.h s.num
    let h ← destroy h s.opr
    let h ← h.free s.num.self
    h.free s.opr.self

/-- The loop of `main` in `test.c` over the arguments, with the values that it prints. -/
def calcArgs : List (List Char) → State ι β → Comp ProgFault (List ℤ × State ι β)
  | [], s => pure ([], s)
  | expr :: argv, s => do
    let r ← calcMain P ovf s expr
    let rs ← calcArgs argv r.2
    return (r.1 :: rs.1, rs.2)

/-- `main` of `test.c` with some arguments, where `q` is allocated and freed as well. -/
def testMain (argv : List (List Char)) (h : Store ι β) : Comp ProgFault (Store ι β × List ℤ) := do
  let q ← (alloc P.malloc h).mapFault .memory
  let s ← calcInit P q.1
  let r ← calcArgs P ovf argv s
  let h ← calcDestroy r.2
  let h ← (h.free q.2).mapFault .memory
  return (h, r.1)

/-- The values that are printed, from the machine on sequences. -/
def expectedArgs : List (List Char) → CalcInfo → Comp Fault (List ℤ × CalcInfo)
  | [], info => pure ([], info)
  | expr :: argv, info => do
    let r ← Calc.calcMain ovf info expr
    let rs ← expectedArgs argv r.2
    return (r.1 :: rs.1, rs.2)

variable {P} {ovf}

lemma calcArgs_simulates (hP : P.Works h₀) (argv : List (List Char)) (hr : Rep P h₀ s info) :
    Comp.Simulates .calc (Returned P h₀) (calcArgs P ovf argv s) (expectedArgs ovf argv info) := by
  induction argv generalizing s info with
  | nil => exact Comp.Simulates.pure ⟨rfl, hr⟩
  | cons expr argv ih =>
      refine (calcMain_simulates hP expr hr).bind ?_
      rintro ⟨v, s₁⟩ ⟨_, info₁⟩ ⟨rfl, hr₁⟩
      refine (ih hr₁).bind ?_
      rintro ⟨vs, s₂⟩ ⟨_, info₂⟩ ⟨rfl, hr₂⟩
      exact Comp.Simulates.pure ⟨rfl, hr₂⟩

lemma calcInit_ends (hP : P.Works h₀) :
    ∃ s, (calcInit P h₀).Ends (.ok s) ∧ Rep P h₀ s Calc.calcInit := by
  obtain ⟨num, -, hnum, hw₁⟩ := alloc_ends hP.malloc (Owns.self h₀) hP.finite
  obtain ⟨opr, -, hopr, hw₂⟩ := alloc_ends hP.malloc hw₁ hP.finite
  obtain ⟨h₃, o, ho, rfl, hh₃, hw₃, hf₃⟩ := Kind.stack.initialise_ends P.num hP.malloc hP.finite
    (hw₂.perm (List.Perm.swap num opr []))
  have hw₃' : Owns h₀.live h₃ (opr :: o.cells []) := hw₃.perm List.perm_append_comm
  obtain ⟨h₄, o', ho', rfl, hh₄, hw₄, hf₄⟩ := Kind.stack.initialise_ends P.opr hP.malloc hP.finite
    hw₃'
  have hw₄' : Owns h₀.live h₄ (o.cells [] ++ o'.cells []) := hw₄.perm List.perm_append_comm
  refine ⟨⟨h₄, o, o', .OPR⟩, ?_, ⟨⟨[], [], ?_, hh₄, hw₄', ?_⟩, rfl⟩⟩
  · exact Comp.mapFault_ends_ok
      (hnum.bind (hopr.bind (ho.bind (ho'.bind (Comp.ends_pure.2 rfl)))))
  · -- the second `stack_init` leaves the first list alone
    refine hh₃.frame hf₄ fun y hy => ?_
    have hmem : y ∈ o.cells [] := by
      rcases List.mem_cons.1 hy with rfl | hy
      · simp [Object.cells]
      · cases hy
    obtain ⟨-, -, hdisj⟩ := List.nodup_append'.1 hw₄'.nodup
    intro hy'
    refine hdisj hmem ?_
    rcases List.mem_cons.1 hy' with rfl | hy'
    · simp [Object.cells]
    · simp [Object.cells, List.mem_singleton.1 hy']
  · have hu₂ : Untouched h₀.live h₀ ((h₀.malloc o.self).malloc o'.self) :=
      fun y _ => ⟨rfl, rfl, rfl⟩
    refine (hu₂.frame hf₃ fun y hy => hw₃.fresh_list y ?_).frame hf₄ fun y hy =>
      hw₄.fresh_list y ?_
    · rcases List.mem_cons.1 hy with rfl | hy
      · simp
      · simp [List.mem_singleton.1 hy]
    · rcases List.mem_cons.1 hy with rfl | hy
      · simp
      · simp [List.mem_singleton.1 hy]

lemma calcDestroy_ends (hr : Rep P h₀ s info) : ∃ h, (calcDestroy s).Ends (.ok h) ∧
    h.live = h₀.live ∧ Untouched h₀.live h₀ h := by
  obtain ⟨⟨xs, ys, hh, hh', hw, hu⟩, -⟩ := hr
  obtain ⟨h₁, hd₁, hw₁, hf₁⟩ := destroy_ends hh hw
  have hother : ∀ y ∈ s.opr.head :: ys, y ∉ s.num.dlist :: s.num.head :: xs := by
    intro y hy hy'
    obtain ⟨-, -, hdisj⟩ := List.nodup_append'.1 hw.nodup
    exact hdisj (List.mem_cons_of_mem _ hy') (List.mem_cons_of_mem _ (List.mem_cons_of_mem _ hy))
  have hw₁' : Owns h₀.live h₁ (s.opr.cells ys ++ [s.num.self]) :=
    hw₁.perm (List.perm_append_singleton _ _).symm
  obtain ⟨h₂, hd₂, hw₂, hf₂⟩ := destroy_ends (hh'.frame hf₁ hother) hw₁'
  have hw₂' := hw₂.perm (List.Perm.swap s.num.self s.opr.self [])
  obtain ⟨h₃, hd₃, hw₃, hf₃⟩ := hw₂'.free_ends
  obtain ⟨h₄, hd₄, hw₄, hf₄⟩ := hw₃.free_ends
  refine ⟨h₄, Comp.mapFault_ends_ok (hd₁.bind (hd₂.bind (hd₃.bind hd₄))), hw₄.live_eq, ?_⟩
  refine (((hu.frame hf₁ hw.fresh_list).frame hf₂ hw₁'.fresh_list).frame hf₃ fun y hy => ?_).frame
    hf₄ fun y hy => ?_
  · exact hw₂'.fresh y (by simp [List.mem_singleton.1 hy])
  · exact hw₃.fresh y hy

/-- **The program on real stacks.**  Whatever the arguments are, if `malloc` always succeeds the
program with its two stacks in memory prints what the machine on sequences computes, runs forever
or stops with a fault of the arithmetic exactly where that does, and reaches no cell that is not
allocated.  When it ends, what it allocated is freed, and the rest of the memory is as it was. -/
theorem testMain_simulates (hm : P.malloc.Succeeds) (h : Store ι β)
    (hb : {y | h.live y = true}.Finite) (argv : List (List Char)) :
    Comp.Simulates .calc
      (fun u v => u.2 = v.1 ∧ u.1.live = h.live ∧ Untouched h.live h u.1)
      (testMain P ovf argv h) (expectedArgs ovf argv Calc.calcInit) := by
  obtain ⟨q, hq, hends, hw⟩ := alloc_ends hm (Owns.self h) hb
  refine (Comp.mapFault_ends_ok hends).simulates ?_
  have hP : P.Works (h.malloc q) := ⟨hm, hw.finite hb⟩
  obtain ⟨s, hs, hr⟩ := calcInit_ends hP
  refine hs.simulates ?_
  -- the machine has nothing left to do behind its last call
  rw [← bind_pure (expectedArgs ovf argv Calc.calcInit)]
  refine (calcArgs_simulates hP argv hr).bind ?_
  rintro ⟨vs, s₁⟩ ⟨_, info₁⟩ ⟨rfl, hr₁⟩
  obtain ⟨h₂, hd, hlive, hu⟩ := calcDestroy_ends hr₁
  have hqlive : h₂.live q = true := by rw [hlive, Heap.live_malloc_self]
  refine hd.simulates ((Comp.mapFault_ends_ok (Heap.free_ends hqlive)).simulates ?_)
  refine Comp.Simulates.pure ⟨rfl, ?_, fun y hy => hu y (Heap.live_malloc hy q)⟩
  show Function.update h₂.live q false = h.live
  rw [hlive]
  funext y
  by_cases hy : y = q
  · simp [hy, hq]
  · rw [Function.update_of_ne hy]
    exact Function.update_of_ne hy _ _

/-! ### An `int` of four bytes -/

/-- The bytes of an `int` in two's complement, the lowest first. -/
def intBytes (n : CInt) : List Char :=
  [Char.ofNat (n.1 % 256).toNat, Char.ofNat (n.1 / 256 % 256).toNat,
    Char.ofNat (n.1 / 65536 % 256).toNat, Char.ofNat (n.1 / 16777216 % 256).toNat]

/-- The number that the bytes stand for without a sign. -/
def unsignedOf (bs : List Char) : ℤ := bs.foldr (fun b n => b.toNat + 256 * n) 0

/-- The number with a sign. -/
def signedOf (u : ℤ) : ℤ := if u < 2147483648 then u else u - 4294967296

def intValue (bs : List Char) : CInt :=
  if h : InInt (signedOf (unsignedOf bs)) then ⟨signedOf (unsignedOf bs), h⟩ else ⟨0, inInt_zero⟩

lemma toNat_byte (n : ℤ) : ((Char.ofNat (n % 256).toNat).toNat : ℤ) = n % 256 := by
  have hlt : (n % 256).toNat < 256 := by omega
  have hvalid : (n % 256).toNat.isValidChar := Or.inl (by omega)
  rw [Char.ofNat, dif_pos hvalid]
  show (((n % 256).toNat : ℕ) : ℤ) = n % 256
  omega

lemma intValue_of {bs : List Char} {n : CInt} (h : signedOf (unsignedOf bs) = n.1) :
    intValue bs = n := by
  have hin : InInt (signedOf (unsignedOf bs)) := by
    rw [h]
    exact n.2
  rw [intValue, dif_pos hin]
  exact Subtype.ext h

lemma intValue_intBytes (n : CInt) : intValue (intBytes n) = n := by
  obtain ⟨hlow, hhigh⟩ := n.2
  refine intValue_of ?_
  simp only [intBytes, unsignedOf, List.foldr_cons, List.foldr_nil, toNat_byte, signedOf]
  split_ifs <;> omega

def intLayout : Layout CInt Char where
  size := 4
  bytes := intBytes
  value := intValue
  length_bytes _ := rfl
  value_bytes := intValue_intBytes

/-- The second argument finds what the first has left. -/
theorem testMain_simulates_args : ∃ (malloc : Malloc ℕ) (h' : Store ℕ Char),
    (testMain ⟨intLayout, Layout.single Char, malloc, ⟨7, by decide⟩, 'x'⟩
      (fun _ => .error .overflow) [['(', '1', '2'], ['*', '3', ')', '-', '4']]
      ⟨⟨⟨id, id⟩, fun _ => []⟩, fun y => y == 0⟩).Ends (.ok (h', [-3, 32])) ∧
      h'.live = fun y => y == 0 := by
  obtain ⟨malloc, hm⟩ := exists_malloc ℕ
  have hexpected : (expectedArgs (fun _ => .error .overflow)
      [['(', '1', '2'], ['*', '3', ')', '-', '4']] Calc.calcInit).Ends
        (.ok ([-3, 32], ⟨[], [], .NUM⟩)) := ⟨12, rfl⟩
  obtain ⟨⟨h', _⟩, hends, rfl, hlive, -⟩ := (testMain_simulates
    (P := ⟨intLayout, Layout.single Char, malloc, ⟨7, by decide⟩, 'x'⟩) hm
    ⟨⟨⟨id, id⟩, fun _ => []⟩, fun y => y == 0⟩ (by simp) _).ok _ hexpected
  exact ⟨malloc, h', hends, hlive⟩

end Memory

end Calc

end DemoClass
